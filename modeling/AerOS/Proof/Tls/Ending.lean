import AerOS.Proof.Tls.Runs

namespace AerOS.Proof.Tls
open Lib Lib.Action AerOS.Tls

variable {T : Type} {net : Transport T} {crypto : Crypto} {opens : Opener} {w : World T} {pending : Nat × Nat}
variable {stop start : Nat} {kind : UInt8}

structure Live (pending : Nat × Nat) (w : World T) : Prop where
  active : w.session.read.active = true
  closed : w.session.closed = false
  pending_eq : w.session.pending = pending

theorem live_writeRecord (kind : UInt8) (data : List UInt8) :
    Preserves (Live pending) (writeRecord net crypto kind data) :=
  preserves_writeRecord (fun _ _ _ _ h => ⟨h.active, h.closed, h.pending_eq⟩) kind data

theorem live_keyUpdate (total : Nat) : Preserves (Live pending) (keyUpdate net crypto total) :=
  keeps_keyUpdate (P := Live pending) (fun _ _ h => h) (fun _ h => ⟨rfl, h.closed, h.pending_eq⟩)
    (keeps_bind (live_writeRecord _ _) fun _ _ h => ⟨h.active, h.closed, h.pending_eq⟩) total

theorem live_postHandshake (rounds : Nat) : Preserves (Live pending) (postHandshake net crypto rounds) :=
  keeps_postHandshake (P := Live pending) (fun _ _ h => h) (fun _ _ h => ⟨h.active, h.closed, h.pending_eq⟩)
    live_keyUpdate rounds

theorem live_openRecord (low : 5 + tagLen < stop) (h : Live pending w) : wp (openRecord opens stop)
      (fun opened w' => Live pending w' ∧ Opened opens w'.session opened)
      (fun _ w' => Live pending w') w := by
  obtain ⟨n, rfl⟩ : ∃ n, stop = 5 + n + tagLen := ⟨stop - tagLen - 5, by omega⟩
  rw [openRecord, wp_bind, wp_get]
  dsimp only
  rw [Nat.add_sub_cancel, Nat.add_sub_cancel_left]
  cases result : opens w.session.suite w.session.read.key w.session.read.nonce (w.session.record.slice 0 5)
      (w.session.record.slice 5 n) (w.session.record.slice (5 + n) tagLen) with
  | none => exact h
  | some plain =>
    rw [wp_bind, wp_update, wp_bind, bumpRead, wp_bind, wp_get]
    split
    · exact ⟨h.active, h.closed, h.pending_eq⟩
    rw [wp_update, wp_bind, wp_get]
    dsimp only
    split
    · exact ⟨h.active, h.closed, h.pending_eq⟩
    exact ⟨⟨h.active, h.closed, h.pending_eq⟩, rfl, w.session.record, n, w.session.read, plain, result, rfl, rfl,
      rfl, rfl⟩

theorem live_readRecord (fuel : Nat) (h : Live pending w) :
    wp (readRecord net opens fuel) (fun opened w' => Live pending w' ∧ Opened opens w'.session opened)
      (fun _ w' => Live pending w') w := by
  apply readRecord_rule (fun _ => Live.active) (fun _ _ h => h) _ (fun _ _ low _ => live_openRecord low) fuel h
  apply keeps_readExactFrom (fun _ _ h => h)
  · exact keeps_receive (fun _ _ h => h) fun _ _ h => ⟨h.active, h.closed, h.pending_eq⟩
  · exact fun _ _ h => ⟨h.active, h.closed, h.pending_eq⟩

theorem notified_of_opened {s : Session} (h : Opened opens s (kind, start, stop))
    (alert : kind = typeAlert) (notify : stop - start = 2 ∧ s.record.byte (start + 1) = 0) : Notified opens s := by
  obtain ⟨rfl, source⟩ := h
  obtain rfl : stop = 7 := by omega
  exact ⟨⟨rfl, alert ▸ source⟩, notify.2⟩

/-- A session that is closed without having been broken off or closed on this side was told so. -/
structure Told (opens : Opener) (w : World T) : Prop where
  active : w.session.read.active = true
  notified : w.session.closed = true → Notified opens w.session ∧ w.session.pending.2 ≤ w.session.pending.1

theorem Live.told (h : Live pending w) : Told opens w :=
  ⟨h.active, fun closed => by simp [h.closed] at closed⟩

theorem told_handleRecord (h : Live pending w)
    (done : Opened opens w.session (kind, start, stop)) (empty : pending.2 ≤ pending.1) :
    wp (handleRecord net crypto kind start stop)
      (fun returned w' => Told opens w' ∧ (returned ≠ none → Notified opens w'.session))
      (fun _ w' => Told opens w') w := by
  unfold handleRecord
  split
  · exact ⟨Live.told ⟨h.active, h.closed, rfl⟩, fun some => absurd rfl some⟩
  split
  · next alert =>
    rw [wp_bind, wp_get]
    split
    · next notify =>
      have notified := notified_of_opened done alert notify
      exact ⟨⟨h.active, fun _ => ⟨notified, h.pending_eq ▸ empty⟩⟩, fun _ => notified⟩
    unfold alertError
    rw [wp_bind, wp_get]
    split
    · exact h.told
    · exact h.told
  split
  · rw [wp_bind, takeHandshake, wp_bind, wp_get]
    dsimp only
    split
    · exact h.told
    rw [wp_bind, wp_update]
    refine wp_mono (live_postHandshake _ _ (?_ : Live pending _))
      (fun _ _ live => ⟨Live.told live, fun some => absurd rfl some⟩)
      (fun _ _ live => Live.told live)
    exact ⟨h.active, h.closed, h.pending_eq⟩
  · exact h.told

theorem told_read {size : Nat} (positive : 0 < size) (fuel : Nat) (h : Told opens w) :
    wp (Tls.read net crypto opens size fuel)
      (fun bytes w' => Told opens w' ∧ (bytes = [] → Notified opens w'.session))
      (fun stop w' => stop ≠ .error .transport → Told opens w') w := by
  induction fuel generalizing w with
  | zero => exact fun _ => h
  | succ fuel ih =>
    rw [Tls.read, wp_bind, wp_get]
    dsimp only
    by_cases waiting : w.session.pending.1 < w.session.pending.2
    · rw [if_pos waiting, wp_bind, wp_update]
      have opened : w.session.closed = false := by
        cases closed : w.session.closed with
        | false => rfl
        | true => exact absurd (h.notified closed).2 (by omega)
      refine ⟨Live.told ⟨h.active, opened, rfl⟩, ?_⟩
      intro none
      have := congrArg List.length none
      simp at this
      omega
    rw [if_neg waiting]
    cases closed : w.session.closed with
    | true => exact ⟨h, fun _ => (h.notified closed).1⟩
    | false =>
      simp only [Bool.false_eq_true, if_false]
      rw [wp_bind, wp_attempt]
      apply wp_mono (live_readRecord fuel ⟨h.active, closed, rfl⟩)
      · rintro ⟨_, _, _⟩ w₁ ⟨live, done⟩
        rw [wp_pure, wp_bind]
        apply wp_mono (told_handleRecord live done (not_lt.mp waiting))
        · rintro returned w₂ ⟨told, notified⟩
          cases returned with
          | none => exact ih told
          | some bytes => exact ⟨told, fun _ => notified (by simp)⟩
        · exact fun _ _ told _ => told
      · intro stop w₁ live
        unfold closeOnTransport
        split
        · exact fun other => absurd rfl other
        · exact fun _ => live.told

theorem told_write (data : List UInt8) : Preserves (Told opens) (Tls.write net crypto data) :=
  keeps_write (fun _ _ h => h) (preserves_writeRecord fun _ _ _ _ h => ⟨h.active, h.notified⟩) data

variable {α : Type}

theorem told_after {x : M T α} {s : System T} {bytes : α → List UInt8} {err : Stop → World T → Prop}
    (done : wp x (fun _ => Told opens) err s.world)
    (failed : ∀ stop w, (x s.world).1 = .error stop → err stop w → Told opens w) :
    Told opens (s.after bytes (x s.world)).world := by
  obtain ⟨a, w, run, told⟩ | ⟨stop, w, run, told⟩ := run_of_wp done
  · rw [run]
    exact told
  have kept := failed stop w (by rw [run]) told
  rw [run]
  cases stop <;> exact kept

theorem told_step {suite : Suite} {s : System T} {event : Event T}
    (h : Told opens s.world) (unbroken : Unbroken net crypto opens s event) (stays : event ≠ .close) :
    Told opens (s.step net crypto suite event).world := by
  unfold System.step
  split
  · exact h
  cases event with
  | peer _ => exact h
  | tamper _ => exact ⟨h.active, h.notified⟩
  | read _ _ fuel =>
    obtain ⟨rfl, positive, unbroken⟩ := unbroken
    refine told_after (wp_mono (told_read positive fuel h) (fun _ _ done => done.1) (fun _ _ kept => kept)) ?_
    intro _ w result kept
    apply kept
    rintro rfl
    exact unbroken result
  | write data => exact told_after (told_write data _ h) fun _ _ _ told => told
  | close => exact absurd rfl stays

theorem told_final {suite : Suite} {s : System T} {events : List (Event T)} (h : Told opens s.world)
    (unbroken : Run.Along (System.step net crypto suite) (Unbroken net crypto opens) s events) :
    Told opens (Run.final (System.step net crypto suite) s events).world ∨ .close ∈ events := by
  induction events generalizing s with
  | nil => exact .inl h
  | cons event _ ih =>
    by_cases closes : event = .close
    · rw [closes]
      exact .inr List.mem_cons_self
    · exact (ih (told_step h unbroken.1 closes) unbroken.2).imp id (List.mem_cons_of_mem _)

/-- A read of at least one byte returns nothing only at an end the peer has announced or after this side
has closed, as long as no earlier read has failed in the transport. -/
theorem end_of_stream_authenticated (net : Transport T) (crypto : Crypto) (suite : Suite) (opens : Opener)
    (client server : List UInt8) (s : System T)
    (connected : Connected crypto suite client server s) (events : List (Event T))
    (unbroken : Run.Along (System.step net crypto suite) (Unbroken net crypto opens) s events)
    (size fuel : Nat) (positive : 0 < size) (w : World T)
    (nothing : Tls.read net crypto opens size fuel (Run.final (System.step net crypto suite) s events).world =
      (.ok [], w)) :
    Notified opens w.session ∨ .close ∈ events := by
  have start : Told opens s.world :=
    Live.told ⟨by rw [connected.read_eq]; rfl, connected.open_eq, connected.pending_eq⟩
  rcases told_final start unbroken with told | closed
  · have done : wp (Tls.read net crypto opens size fuel) _ _ _ := told_read positive fuel told
    unfold wp at done
    rw [nothing] at done
    exact .inl (done.2 rfl)
  · exact .inr closed

def farewell : Sealing := recordOf typeAlert [1, 0]

theorem farewell_authenticated :
    ∃ w, Tls.read lineNet countingCrypto (vault (logAfter [farewell])) 8 4
        (Run.final lineStep justConnected [deliver (onWire farewell) 0]).world = (.ok [], w) ∧
      Notified (vault (logAfter [farewell])) w.session := by
  have nothing : (Tls.read lineNet countingCrypto (vault (logAfter [farewell])) 8 4
      (Run.final lineStep justConnected [deliver (onWire farewell) 0]).world).1 = .ok [] := rfl
  refine ⟨_, Prod.ext nothing rfl, ?_⟩
  have ended := end_of_stream_authenticated lineNet countingCrypto .chaCha20Poly1305 _ [100] [1] justConnected
    justConnected_connected [deliver (onWire farewell) 0] ⟨trivial, trivial⟩ 8 4 (by decide) _ (Prod.ext nothing rfl)
  exact ended.resolve_right (by simp [deliver])

/-- The line ends without a word: the first read reports the transport, the second the end. -/
theorem truncation_read_as_end : Connected countingCrypto .chaCha20Poly1305 [100] [1] justConnected ∧
    (Tls.read lineNet countingCrypto (fun _ _ _ _ _ _ => none) 8 4 justConnected.world).1 =
      .error (.error .transport) ∧
    (Tls.read lineNet countingCrypto (fun _ _ _ _ _ _ => none) 8 4
      (Run.final lineStep justConnected [.read (fun _ _ _ _ _ _ => none) 8 4]).world).1 = .ok [] ∧
    ∀ s, ¬ Notified (fun _ _ _ _ _ _ => none) s :=
  ⟨justConnected_connected, rfl, rfl, fun _ ⟨⟨_, _, _, _, _, never, _⟩, _⟩ => nomatch never⟩

end AerOS.Proof.Tls
