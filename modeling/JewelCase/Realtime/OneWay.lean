import JewelCase.Realtime.Client

/-!
# Always one way forward

What holds of a client after any events: while it is started, a socket waits for its hello, is
connected and pinged, or is to be tried again, and no other timer or socket is about.
-/
namespace JewelCase.Realtime

set_option autoImplicit false

open Library (Timers)

namespace Client

/-- What was seen since the last start. -/
def sinceStart (c : Client) : List Seen := c.seen.takeWhile (· ≠ .started)

/-! ### The invariant -/

/-- The part that is about the socket and the timers. -/
structure OneWay (c : Client) : Prop where
  tidy : c.timers.Tidy
  listening : c.listening = c.socket.toList
  window : c.windowListens = c.running
  held : c.socket.isSome = true → c.running = true
  connected : c.connected = true → c.socket.isSome = true
  retry : c.timers.Pending .retry ↔ c.running = true ∧ c.socket = none
  connect : c.timers.Pending .connect ↔ c.socket.isSome = true ∧ c.connected = false
  pinging : c.timers.Pending .pinging ↔ c.connected = true

/-- The part that is about being offline and signed out. -/
structure Said (c : Client) : Prop where
  offline : c.offline = true → c.connected = false ∧ c.wasConnected = true
  waiting : c.timers.Pending .offline → c.connected = false ∧ c.wasConnected = true
  named : (c.timers.field .offline).isSome = true → c.timers.Pending .offline
  greeted : c.wasConnected = true → .hello ∈ c.sinceStart
  signedOut : c.running = true → .signedOut ∉ c.sinceStart
  once : c.sinceStart.count .signedOut ≤ 1

structure Sound (c : Client) : Prop extends OneWay c, Said c where
  stopped : c.running = false → c.wasConnected = false ∧ ¬ c.timers.Pending .offline

theorem sound_new : new.Sound where
  tidy := Timers.tidy_none
  listening := rfl
  window := rfl
  held := by simp [new]
  connected := by simp [new]
  retry := by simp [new, Timers.pending_none]
  connect := by simp [new, Timers.pending_none]
  pinging := by simp [new, Timers.pending_none]
  stopped := fun _ => ⟨rfl, Timers.pending_none _⟩
  offline := by simp [new]
  waiting := fun h => absurd h (Timers.pending_none _)
  named := by simp [new, Timers.none]
  greeted := by simp [new]
  signedOut := by simp [new, sinceStart]
  once := by simp [new, sinceStart]

variable {c : Client}

/-- Between two sockets: none is held, and neither of a socket's timers is pending. -/
structure Between (c : Client) : Prop extends Said c where
  tidy : c.timers.Tidy
  listening : c.listening = []
  window : c.windowListens = c.running
  socket : c.socket = none
  connected : c.connected = false
  connect : ¬ c.timers.Pending .connect
  pinging : ¬ c.timers.Pending .pinging

/-- **Letting go of the socket**, whatever it was at. -/
theorem Said.drop (h : c.Said) (htidy : c.timers.Tidy) (hlistening : c.listening = c.socket.toList)
    (hwindow : c.windowListens = c.running) : c.drop.Between where
  tidy := htidy.clear.clear
  listening := by
    cases hsocket : c.socket <;> simp [Client.drop, clear, hlistening, hsocket]
  window := hwindow
  socket := rfl
  connected := rfl
  connect := fun hpending => (htidy.clear.pending_clear.1 hpending).1 rfl
  pinging := fun hpending =>
    (htidy.pending_clear.1 (htidy.clear.pending_clear.1 hpending).2).1 rfl
  offline := fun hoffline => ⟨rfl, (h.offline hoffline).2⟩
  waiting := fun hpending =>
    ⟨rfl, (h.waiting (htidy.pending_clear.1 (htidy.clear.pending_clear.1 hpending).2).2).2⟩
  named := fun hnamed => htidy.clear.pending_clear.2
    ⟨by decide, htidy.pending_clear.2 ⟨by decide, h.named hnamed⟩⟩
  greeted := h.greeted
  signedOut := h.signedOut
  once := h.once

theorem Between.clearRetry (h : c.Between) :
    (c.clear .retry).Between ∧ ¬ (c.clear .retry).timers.Pending .retry := by
  refine ⟨{ h with tidy := ?_, connect := ?_, pinging := ?_, waiting := ?_, named := ?_ }, ?_⟩
  · exact fun hpending => h.waiting (h.tidy.pending_clear.1 hpending).2
  · exact fun hnamed => h.tidy.pending_clear.2 ⟨by decide, h.named hnamed⟩
  · exact h.tidy.clear
  · exact fun hpending => h.connect (h.tidy.pending_clear.1 hpending).2
  · exact fun hpending => h.pinging (h.tidy.pending_clear.1 hpending).2
  · exact fun hpending => (h.tidy.pending_clear.1 hpending).1 rfl

/-- A connection that was open is said to be offline once it stays lost. -/
theorem Between.setOffline (h : c.Between) (hwas : c.wasConnected = true)
    (hfield : c.timers.field .offline = none) : (c.set .offline).Between := by
  refine { h with tidy := ?_, connect := ?_, pinging := ?_, waiting := ?_, named := ?_ }
  · exact fun _ => ⟨h.connected, hwas⟩
  · exact fun _ => Timers.pending_set.2 (Or.inr rfl)
  · exact h.tidy.set (h.tidy.not_pending hfield)
  · exact fun hpending => h.connect (by simpa [set] using hpending)
  · exact fun hpending => h.pinging (by simpa [set] using hpending)

/-- A socket opened waits for its hello. -/
theorem Between.openSocket (h : c.Between) (hrunning : c.running = true)
    (hretry : ¬ c.timers.Pending .retry) : c.openSocket.Sound where
  tidy := h.tidy.set h.connect
  listening := by simp [Client.openSocket, set, h.listening]
  window := h.window
  held := fun _ => hrunning
  connected := fun _ => rfl
  retry := by simp [Client.openSocket, set, hretry]
  connect := by simp [Client.openSocket, set, h.connected]
  pinging := by simp [Client.openSocket, set, h.connected, h.pinging]
  stopped := fun hstopped => by
    change c.running = false at hstopped
    rw [hrunning] at hstopped
    cases hstopped
  offline := h.offline
  waiting := fun hpending => h.waiting (by simpa [Client.openSocket, set] using hpending)
  named := fun hnamed => Timers.pending_set.2 (Or.inl (h.named hnamed))
  greeted := h.greeted
  signedOut := h.signedOut
  once := h.once

/-- With no socket, the client is to try again. -/
theorem Between.setRetry (h : c.Between) (hrunning : c.running = true)
    (hretry : ¬ c.timers.Pending .retry) : (c.set .retry).Sound where
  tidy := h.tidy.set hretry
  listening := by simp [set, h.listening, h.socket]
  window := h.window
  held := fun _ => hrunning
  connected := fun hconnected => by
    change c.connected = true at hconnected
    rw [h.connected] at hconnected
    cases hconnected
  retry := by simp [set, hrunning, h.socket]
  connect := by simp [set, h.connect, h.socket]
  pinging := by simp [set, h.connected, h.pinging]
  stopped := fun hstopped => by
    change c.running = false at hstopped
    rw [hrunning] at hstopped
    cases hstopped
  offline := h.offline
  waiting := fun hpending => h.waiting (by simpa [set] using hpending)
  named := fun hnamed => Timers.pending_set.2 (Or.inl (h.named hnamed))
  greeted := h.greeted
  signedOut := h.signedOut
  once := h.once

/-! ### The exits -/

theorem Sound.stop (h : c.Sound) : c.stop.Sound ∧ c.stop.running = false := by
  have hsaid : ({ c with running := false, windowListens := false }.clear .retry).Said :=
    { h.toSaid with
      waiting := fun hpending => h.waiting (h.tidy.pending_clear.1 hpending).2
      named := fun hnamed => h.tidy.pending_clear.2 ⟨by decide, h.named hnamed⟩
      signedOut := fun hrunning => by cases hrunning }
  have hbetween := hsaid.drop h.tidy.clear h.listening rfl
  generalize hdropped : ({ c with running := false, windowListens := false }.clear .retry).drop = d
    at hbetween
  have hrunning : d.running = false := by rw [← hdropped]; rfl
  have hretry : ¬ d.timers.Pending .retry := by
    rw [← hdropped]
    intro hpending
    have hclear := (h.tidy.clear.clear.pending_clear.1 hpending).2
    exact (h.tidy.pending_clear.1 (h.tidy.clear.pending_clear.1 hclear).2).1 rfl
  have hstop : c.stop = { (d.clear .offline).forget .offline with
      offline := false, wasConnected := false, failures := 0 } := by
    rw [← hdropped]
    rfl
  rw [hstop]
  have hgone : ∀ which, ¬ (d.timers.clear .offline).Pending which := by
    intro which hpending
    obtain ⟨hne, hpending⟩ := hbetween.tidy.pending_clear.1 hpending
    cases which with
    | retry => exact hretry hpending
    | connect => exact hbetween.connect hpending
    | offline => exact hne rfl
    | pinging => exact hbetween.pinging hpending
  refine ⟨?_, hrunning⟩
  constructor
  · constructor
    · exact hbetween.tidy.clear.forget (hgone .offline)
    · exact hbetween.listening.trans (congrArg Option.toList hbetween.socket).symm
    · exact hbetween.window
    · exact fun hsocket => by simp [clear, forget, hbetween.socket] at hsocket
    · exact fun hconnected => by simp [clear, forget, hbetween.connected] at hconnected
    · exact iff_of_false (hgone .retry) (by simp [clear, forget, hrunning])
    · exact iff_of_false (hgone .connect) (by simp [clear, forget, hbetween.socket])
    · exact iff_of_false (hgone .pinging) (by simp [clear, forget, hbetween.connected])
  · constructor
    · exact fun hoffline => by cases hoffline
    · exact fun hpending => absurd hpending (hgone .offline)
    · exact fun hnamed => by simp [clear, forget, Timers.field_forget] at hnamed
    · exact fun hwas => by cases hwas
    · exact fun hon => by simp [clear, forget, hrunning] at hon
    · exact hbetween.once
  · exact fun _ => ⟨rfl, hgone .offline⟩

/-- Signing out happens while the client is started, which it then is not. -/
theorem Sound.signOut (h : c.Sound) (hrunning : c.running = true) : c.signOut.Sound := by
  obtain ⟨hstop, hoff⟩ := h.stop
  have hsince : c.signOut.sinceStart = .signedOut :: c.sinceStart := by
    rw [sinceStart, Client.signOut, note, List.takeWhile_cons, if_pos (by decide)]
    rfl
  refine { hstop with greeted := ?_, signedOut := ?_, once := ?_ }
  · intro hwas
    change c.stop.wasConnected = true at hwas
    rw [(hstop.stopped hoff).1] at hwas
    cases hwas
  · intro hon
    change c.stop.running = true at hon
    rw [hoff] at hon
    cases hon
  · have hnone := List.count_eq_zero_of_not_mem (h.signedOut hrunning)
    rw [hsince, List.count_cons_self]
    omega

theorem Sound.start (h : c.Sound) : c.start.Sound := by
  unfold Client.start
  split_ifs with hrunning
  · exact h
  · rw [Bool.not_eq_true] at hrunning
    have hsocket : c.socket = none := by
      cases hsocket : c.socket with
      | none => rfl
      | some socket =>
        have := h.held (by rw [hsocket]; rfl)
        rw [hrunning] at this
        cases this
    have hconnected : c.connected = false := by
      cases hconnected : c.connected with
      | false => rfl
      | true =>
        have := h.connected hconnected
        rw [hsocket] at this
        cases this
    have hbetween : ({ c with running := true, windowListens := true }.note .started).Between := by
      constructor
      · constructor
        · exact fun hoffline => h.offline hoffline
        · exact fun hpending => h.waiting hpending
        · exact fun hnamed => h.named hnamed
        · exact fun hwas => absurd hwas (by simp [note, (h.stopped hrunning).1])
        · exact fun _ => by simp [sinceStart, note]
        · simp [sinceStart, note]
      · exact h.tidy
      · exact h.listening.trans (congrArg Option.toList hsocket)
      · rfl
      · exact hsocket
      · exact hconnected
      · exact fun hpending => by simpa [hsocket] using h.connect.1 hpending
      · exact fun hpending => by simpa [hconnected] using h.pinging.1 hpending
    refine hbetween.openSocket rfl ?_
    intro hpending
    have := (h.retry.1 hpending).1
    rw [hrunning] at this
    cases this

/-- **The connection is gone**: a retry is pending, and nothing else but being offline. -/
theorem Said.lost (h : c.Said) (htidy : c.timers.Tidy) (hlistening : c.listening = c.socket.toList)
    (hwindow : c.windowListens = c.running) (hrunning : c.running = true) : c.lost.Sound := by
  have hdrop := h.drop htidy hlistening hwindow
  have hon : c.drop.running = true := hrunning
  unfold Client.lost
  dsimp only
  rw [hon]
  simp only [Bool.not_true, Bool.false_eq_true, if_false]
  -- Whether it is to be said that the client is offline does not matter to what follows.
  have hsaid : (if c.drop.wasConnected && (c.drop.timers.field .offline).isNone then
      c.drop.set .offline else c.drop).Between ∧
      (if c.drop.wasConnected && (c.drop.timers.field .offline).isNone then
        c.drop.set .offline else c.drop).running = true := by
    split_ifs with hset
    · rw [Bool.and_eq_true, Option.isNone_iff_eq_none] at hset
      exact ⟨hdrop.setOffline hset.1 hset.2, hon⟩
    · exact ⟨hdrop, hon⟩
  generalize (if c.drop.wasConnected && (c.drop.timers.field .offline).isNone then
    c.drop.set .offline else c.drop) = d at hsaid
  have hcounted : ∀ e : Client, e.Between → e.running = true →
      (({ e with failures := e.failures + 1 }.clear .retry).set .retry).Sound := by
    intro e he hrun
    have hfailed : ({ e with failures := e.failures + 1 } : Client).Between := { he with }
    obtain ⟨hclear, hretry⟩ := hfailed.clearRetry
    exact hclear.setRetry hrun hretry
  split_ifs
  · exact hcounted _ { hsaid.1 with } hsaid.2
  · exact hcounted d hsaid.1 hsaid.2

theorem Sound.lost (h : c.Sound) (hrunning : c.running = true) : c.lost.Sound :=
  h.toSaid.lost h.tidy h.listening h.window hrunning

theorem Sound.check (h : c.Sound) (hrunning : c.running = true) (now : Int) :
    (c.check now).Sound := by
  unfold Client.check
  split_ifs
  · exact h.lost hrunning
  · exact h
  · exact { h with }

/-! ### Messages -/

theorem Sound.note (h : c.Sound) {what : Seen} (hstarted : what ≠ .started)
    (hout : what ≠ .signedOut) : (c.note what).Sound := by
  have hsince : (c.note what).sinceStart = what :: c.sinceStart := by
    rw [sinceStart, Client.note, List.takeWhile_cons, if_pos (by simpa using hstarted)]
    rfl
  refine { h with greeted := ?_, signedOut := ?_, once := ?_ }
  · intro hwas
    rw [hsince]
    exact List.mem_cons_of_mem _ (h.greeted hwas)
  · intro hrunning
    rw [hsince, List.mem_cons, not_or]
    exact ⟨fun heq => hout heq.symm, h.signedOut hrunning⟩
  · rw [hsince, List.count_cons_of_ne hout]
    exact h.once

/-- A hello makes the socket's connection the client's. -/
theorem Sound.greet (h : c.Sound) (hsocket : c.socket.isSome = true) (serverTime : Option Int)
    (deviceId : String) (now : Int) : (c.greet serverTime deviceId now).Sound := by
  have hrunning := h.held hsocket
  have hretry : ¬ c.timers.Pending .retry := fun hpending => by
    rw [(h.retry.1 hpending).2] at hsocket
    cases hsocket
  have hoffline : ¬ ((c.timers.clear .connect).clear .offline).Pending .offline :=
    fun hpending => (h.tidy.clear.pending_clear.1 hpending).1 rfl
  have hforgot := h.tidy.clear.clear.forget hoffline
  have hpinging : ¬ ((((c.timers.clear .connect).clear .offline).forget .offline).clear
      .pinging).Pending .pinging := fun hpending => (hforgot.pending_clear.1 hpending).1 rfl
  -- Of the timers, only the new interval is left.
  have hleft : ∀ which, (((((c.timers.clear .connect).clear .offline).forget .offline).clear
      .pinging).set .pinging).Pending which ↔ which = .pinging := by
    intro which
    rw [Timers.pending_set, hforgot.pending_clear, Timers.pending_forget,
      h.tidy.clear.pending_clear, h.tidy.pending_clear]
    cases which <;> simp [hretry]
  have hsince : (c.greet serverTime deviceId now).sinceStart = .hello :: c.sinceStart := by
    rw [sinceStart, Client.greet, Client.note, List.takeWhile_cons, if_pos (by decide)]
    rfl
  constructor
  · constructor
    · exact hforgot.clear.set hpinging
    · exact h.listening
    · exact h.window
    · exact fun _ => hrunning
    · exact fun _ => hsocket
    · refine iff_of_false (fun hpending => by cases (hleft _).1 hpending) ?_
      rintro ⟨-, hnone⟩
      change c.socket = none at hnone
      rw [hnone] at hsocket
      cases hsocket
    · refine iff_of_false (fun hpending => by cases (hleft _).1 hpending) ?_
      rintro ⟨-, hconnected⟩
      cases hconnected
    · exact iff_of_true ((hleft _).2 rfl) rfl
  · constructor
    · exact fun hoff => by cases hoff
    · exact fun hpending => by cases (hleft _).1 hpending
    · exact fun hnamed => by
        change ((((((c.timers.clear .connect).clear .offline).forget .offline).clear
          .pinging).set .pinging).field .offline).isSome = true at hnamed
        rw [Timers.field_set, if_neg (by decide), Timers.field_clear, Timers.field_forget,
          if_pos rfl] at hnamed
        cases hnamed
    · exact fun _ => by rw [hsince]; exact List.mem_cons_self
    · exact fun _ => by
        rw [hsince, List.mem_cons, not_or]
        exact ⟨by decide, h.signedOut hrunning⟩
    · rw [hsince, List.count_cons_of_ne (by decide)]
      exact h.once
  · intro hstopped
    change c.running = false at hstopped
    rw [hrunning] at hstopped
    cases hstopped

theorem Sound.hear (h : c.Sound) (socket : Nat) (calls : List Call) : (c.hear socket calls).Sound := by
  unfold Client.hear
  have hnoted : (c.note (.heard socket)).Sound := h.note (by simp) (by simp)
  generalize c.note (.heard socket) = d at hnoted
  induction calls generalizing d with
  | nil => exact hnoted
  | cons call calls ih =>
    refine ih (d.call call) ?_
    cases call with
    | start => exact hnoted.start
    | stop => exact hnoted.stop.1
    | send => exact hnoted

theorem Sound.tell (h : c.Sound) (socket : Nat) (heard : List (List Call)) :
    (heard.foldl (fun c calls => c.hear socket calls) c).Sound := by
  induction heard generalizing c with
  | nil => exact h
  | cons calls heard ih => exact ih (h.hear socket calls)

theorem Sound.receive (h : c.Sound) (hsocket : c.socket.isSome = true) (socket : Nat)
    (message : Message) (heard : List (List Call)) (now : Int) :
    (c.receive socket message heard now).Sound := by
  have hheard : ({ c with heardAt := now } : Client).Sound := { h with }
  cases message with
  | hello serverTime deviceId => exact (hheard.greet hsocket serverTime deviceId now).tell _ _
  | pong serverTime =>
    have hclock : ∀ offset, (({ c with heardAt := now } : Client).setClock offset).Sound :=
      fun _ => { hheard with }
    exact (hclock _).tell _ _
  | sessionRevoked => exact hheard.signOut (h.held hsocket)
  | other => exact hheard.tell _ _

/-! ### Timers and the window -/

/-- With no socket held, a started client only waits for its next try. -/
theorem Sound.between (h : c.Sound) (hsocket : c.socket = none) : c.Between where
  toSaid := h.toSaid
  tidy := h.tidy
  listening := h.listening.trans (congrArg Option.toList hsocket)
  window := h.window
  socket := hsocket
  connected := by
    cases hconnected : c.connected with
    | false => rfl
    | true =>
      have := h.connected hconnected
      rw [hsocket] at this
      cases this
  connect := fun hpending => by
    have := (h.connect.1 hpending).1
    rw [hsocket] at this
    cases this
  pinging := fun hpending => by
    have := h.connected (h.pinging.1 hpending)
    rw [hsocket] at this
    cases this

theorem Sound.reconnectNow (h : c.Sound) (hidden : Bool) (now : Int) :
    (c.reconnectNow hidden now).Sound := by
  unfold Client.reconnectNow
  split_ifs with hoff hconnected hsocket
  · exact h
  · exact h.check (h.held (h.connected hconnected)) now
  · exact h
  · rw [Bool.or_eq_true, not_or, Bool.not_eq_true', Bool.not_eq_false] at hoff
    rw [Option.isSome_iff_ne_none, not_not] at hsocket
    obtain ⟨hbetween, hretry⟩ := (h.between hsocket).clearRetry
    exact Between.openSocket { hbetween with } hoff.1 hretry

/-- A timer taken from those pending is gone, and every other is as it was. -/
theorem Sound.fire (h : c.Sound) {timer : Nat × Timer} (htimer : timer ∈ c.timers.pending)
    (now : Int) : (c.step (.fire timer now)).Sound := by
  have hpending : c.timers.Pending timer.2 := List.mem_map_of_mem htimer
  have htaken : ∀ other, (c.timers.take timer).Pending other ↔ other ≠ timer.2 ∧
      c.timers.Pending other := fun other => h.tidy.pending_take htimer
  have hsaid : timer.2 ≠ .offline → ({ c with timers := c.timers.take timer } : Client).Said :=
    fun hne => { h.toSaid with
      waiting := fun hoffline => h.waiting ((htaken _).1 hoffline).2
      named := fun hnamed => (htaken _).2 ⟨hne.symm, h.named hnamed⟩ }
  rw [Client.step, if_pos htimer]
  obtain ⟨id, which⟩ := timer
  cases which with
  | retry =>
    obtain ⟨hrunning, hsocket⟩ := h.retry.1 hpending
    have hbetween := h.between hsocket
    refine Between.openSocket (c := { c with timers := c.timers.take (id, .retry) }) ?_ hrunning ?_
    · exact { hbetween with
        toSaid := hsaid (by simp)
        tidy := h.tidy.take _
        connect := fun hconnect => hbetween.connect ((htaken _).1 hconnect).2
        pinging := fun hpinging => hbetween.pinging ((htaken _).1 hpinging).2 }
    · exact fun hretry => ((htaken _).1 hretry).1 rfl
  | connect =>
    exact (hsaid (by simp)).lost (h.tidy.take _) h.listening h.window
      (h.held (h.connect.1 hpending).1)
  | offline =>
    obtain ⟨hconnected, hwas⟩ := h.waiting hpending
    have hgone : ¬ (c.timers.take (id, .offline)).Pending .offline :=
      fun hoffline => ((htaken _).1 hoffline).1 rfl
    have hkept : ∀ which, which ≠ .offline →
        (((c.timers.take (id, .offline)).forget .offline).Pending which ↔
          c.timers.Pending which) := fun which hne => by
      rw [Timers.pending_forget, htaken]
      exact and_iff_right hne
    have hdone : c.step (.fire (id, .offline) now) = { c with
        timers := (c.timers.take (id, .offline)).forget .offline, offline := true } := by
      rw [Client.step, if_pos htimer]
      simp [fired, forget, hconnected]
    rw [Client.step, if_pos htimer] at hdone
    rw [hdone]
    exact { h with
      tidy := (h.tidy.take _).forget hgone
      retry := (hkept _ (by decide)).trans h.retry
      connect := (hkept _ (by decide)).trans h.connect
      pinging := (hkept _ (by decide)).trans h.pinging
      offline := fun _ => ⟨hconnected, hwas⟩
      waiting := fun hoffline => absurd hoffline hgone
      named := fun hnamed => by simp [Timers.field_forget] at hnamed
      stopped := fun hstopped => ⟨(h.stopped hstopped).1, hgone⟩ }
  | pinging => exact h.check (h.held (h.connected (h.pinging.1 hpending))) now

/-- **One event.** -/
theorem Sound.step (h : c.Sound) (event : Event) : (c.step event).Sound := by
  cases event with
  | start => exact h.start
  | stop => exact h.stop.1
  | message socket message heard now =>
    cases message with
    | none => exact h
    | some message =>
      rw [Client.step]
      split_ifs with hlistening
      · rw [h.listening, Option.mem_toList] at hlistening
        exact h.receive (Option.isSome_of_mem hlistening) socket message heard now
      · exact h
  | close socket =>
    rw [Client.step]
    split_ifs with hsocket
    · exact h.lost (h.held (by rw [hsocket.2]; rfl))
    · exact h
  | fire timer now =>
    by_cases htimer : timer ∈ c.timers.pending
    · exact h.fire htimer now
    · rw [Client.step, if_neg htimer]
      exact h
  | window hidden now =>
    rw [Client.step]
    split_ifs
    · exact h.reconnectNow hidden now
    · exact h
  | answer signedIn =>
    rw [Client.step]
    split_ifs with hasked
    · have hanswered : ({ c with checks := c.checks - 1 } : Client).Sound := { h with }
      dsimp only
      split_ifs with hout
      · rw [Bool.and_eq_true] at hout
        exact hanswered.signOut hout.2
      · exact hanswered
    · exact h

/-- **Any events.** -/
theorem sound_run (events : List Event) : (new.run events).Sound := by
  have hrun : ∀ c : Client, c.Sound → (c.run events).Sound := by
    induction events with
    | nil => exact fun _ h => h
    | cons event events ih => exact fun _ h => ih _ (h.step event)
  exact hrun new sound_new

/-! ### The ways forward -/

/-- How a started client goes on. -/
inductive Way where
  | waiting
  | pinged
  | retrying
deriving DecidableEq, Repr

/-- The timers pending but for the one that says the client is offline. -/
def wayTimers (c : Client) : List Timer :=
  (c.timers.pending.map Prod.snd).filter fun timer => timer ≠ .offline

/-- A socket waits for its hello with its connect timer pending, or is connected with its ping
interval running, or there is none and one retry timer is pending. -/
def At (c : Client) : Way → Prop
  | .waiting => c.socket.isSome = true ∧ c.connected = false ∧ c.wayTimers = [.connect]
  | .pinged => c.socket.isSome = true ∧ c.connected = true ∧ c.wayTimers = [.pinging]
  | .retrying => c.socket = none ∧ c.connected = false ∧ c.wayTimers = [.retry]

theorem At.unique {a b : Way} (ha : c.At a) (hb : c.At b) : a = b := by
  cases a <;> cases b <;> simp_all [At]

theorem Sound.way (h : c.Sound) (hrunning : c.running = true) : ∃! way, c.At way := by
  have hway : ∃ way, c.At way := by
    cases hsocket : c.socket with
    | none =>
      have hbetween := h.between hsocket
      refine ⟨.retrying, hsocket, hbetween.connected, h.tidy.pending_eq (by decide) ?_⟩
      intro other hother
      cases other with
      | retry => exact iff_of_true (h.retry.2 ⟨hrunning, hsocket⟩) rfl
      | connect => exact iff_of_false hbetween.connect (by decide)
      | offline => cases hother
      | pinging => exact iff_of_false hbetween.pinging (by decide)
    | some socket =>
      have hsome : c.socket.isSome = true := by rw [hsocket]; rfl
      have hretry : ¬ c.timers.Pending .retry := fun hpending => by
        have := (h.retry.1 hpending).2
        rw [hsocket] at this
        cases this
      cases hconnected : c.connected with
      | false =>
        refine ⟨.waiting, hsome, hconnected, h.tidy.pending_eq (by decide) ?_⟩
        intro other hother
        cases other with
        | retry => exact iff_of_false hretry (by decide)
        | connect => exact iff_of_true (h.connect.2 ⟨hsome, hconnected⟩) rfl
        | offline => cases hother
        | pinging =>
          refine iff_of_false (fun hpending => ?_) (by decide)
          rw [h.pinging.1 hpending] at hconnected
          cases hconnected
      | true =>
        refine ⟨.pinged, hsome, hconnected, h.tidy.pending_eq (by decide) ?_⟩
        intro other hother
        cases other with
        | retry => exact iff_of_false hretry (by decide)
        | connect =>
          refine iff_of_false (fun hpending => ?_) (by decide)
          rw [(h.connect.1 hpending).2] at hconnected
          cases hconnected
        | offline => cases hother
        | pinging => exact iff_of_true (h.pinging.2 hconnected) rfl
  obtain ⟨way, hway⟩ := hway
  exact ⟨way, hway, fun other hother => hother.unique hway⟩

/-- A listener that stops the client gives the socket up, and the listeners after it still hear the
message that came over it. -/
theorem heard_once_given_up :
    let greeted := new.run [.start, .message 0 (some (.hello none "")) [] 0]
    let given := ({ greeted with heardAt := 1 }).hear 0 [.stop]
    greeted.socket = some 0 ∧ given.socket = none ∧ given.listening = [] ∧
      greeted.step (.message 0 (some .other) [[.stop], []] 1) = given.hear 0 [] ∧
      (given.hear 0 []).seen = .heard 0 :: given.seen :=
  ⟨rfl, rfl, rfl, rfl, rfl⟩

/-- After any events: a started client is at exactly one of the three ways forward, and a stopped one
holds no socket and no timer; only the socket held has handlers, and neither a message nor the close
of any other changes anything or reaches a listener; the client is connected exactly at the second;
it is offline only while started and not connected, and once a hello came since its start; and since
any start it signed out once at most. -/
theorem always_one_way (events : List Event) :
    ((new.run events).running = true → ∃! way, (new.run events).At way) ∧
    ((new.run events).running = false → (new.run events).socket = none ∧
      (new.run events).listening = [] ∧ (new.run events).timers.pending = []) ∧
    (∀ socket message heard now, (new.run events).socket ≠ some socket →
      (new.run events).step (.message socket message heard now) = new.run events ∧
      (new.run events).step (.close socket) = new.run events) ∧
    ((new.run events).connected = true ↔ (new.run events).At .pinged) ∧
    ((new.run events).offline = true → (new.run events).running = true ∧
      (new.run events).connected = false ∧ .hello ∈ (new.run events).sinceStart) ∧
    (new.run events).sinceStart.count .signedOut ≤ 1 := by
  have h := sound_run events
  generalize new.run events = c at h
  have hheld : c.running = false → c.socket = none := fun hstopped => by
    cases hsocket : c.socket with
    | none => rfl
    | some socket =>
      have := h.held (by rw [hsocket]; rfl)
      rw [hstopped] at this
      cases this
  refine ⟨h.way, ?_, ?_, ?_, ?_, h.once⟩
  · intro hstopped
    have hsocket := hheld hstopped
    have hbetween := h.between hsocket
    refine ⟨hsocket, hbetween.listening, List.eq_nil_iff_forall_not_mem.mpr ?_⟩
    intro timer htimer
    have hpending : c.timers.Pending timer.2 := List.mem_map_of_mem htimer
    generalize timer.2 = which at hpending
    cases which with
    | retry =>
      have := (h.retry.1 hpending).1
      rw [hstopped] at this
      cases this
    | connect => exact hbetween.connect hpending
    | offline => exact (h.stopped hstopped).2 hpending
    | pinging => exact hbetween.pinging hpending
  · intro socket message heard now hother
    have hnot : socket ∉ c.listening := by
      rw [h.listening, Option.mem_toList]
      exact hother
    constructor
    · cases message with
      | none => rfl
      | some message => rw [Client.step, if_neg hnot]
    · rw [Client.step, if_neg (fun hclose => hnot hclose.1)]
  · constructor
    · intro hconnected
      have hrunning := h.held (h.connected hconnected)
      obtain ⟨way, hway, -⟩ := h.way hrunning
      cases way with
      | waiting => rw [hway.2.1] at hconnected; cases hconnected
      | pinged => exact hway
      | retrying => rw [hway.2.1] at hconnected; cases hconnected
    · exact fun hway => hway.2.1
  · intro hoffline
    obtain ⟨hconnected, hwas⟩ := h.offline hoffline
    refine ⟨?_, hconnected, h.greeted hwas⟩
    cases hrunning : c.running with
    | true => rfl
    | false =>
      rw [(h.stopped hrunning).1] at hwas
      cases hwas

end Client

end JewelCase.Realtime
