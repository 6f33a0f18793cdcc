import AerOS.Proof.Tls.Channel

namespace AerOS.Proof.Tls
open Lib Lib.Action AerOS.Tls System

variable {T : Type} {net : Transport T} {crypto : Crypto} {suite : Suite} {client server : List UInt8}
variable {returned : List UInt8} {good : T → Prop} {α : Type}
variable {x : M T α} {w : World T} {events : List (Event T)}

theorem after_peer (s : System T) (bytes : α → List UInt8) (result : Except Stop α × World T) :
    (s.after bytes result).peer = s.peer := by
  rcases result with ⟨stop | _, w⟩
  · cases stop <;> rfl
  · rfl

structure Counted (crypto : Crypto) (suite : Suite) (client server : List UInt8) (s : System T) : Prop where
  stopped : Writing crypto suite client 1 s.world
  running : s.halted = false → Writing crypto suite client 0 s.world
  fresh : Fresh crypto suite server s.peer.keys
  spent : Spent crypto suite server (stamp s.peer.keys) (s.peer.log.map fun entry => (entry.1.key, entry.1.nonce))

theorem counted_after {s : System T} (h : Counted crypto suite client server s)
    (seals : Seals crypto suite client x) (bytes : α → List UInt8) (running : s.halted = false) :
    Counted crypto suite client server (s.after bytes (x s.world)) := by
  obtain ⟨a, w, run, done⟩ | ⟨stop, w, run, done⟩ := run_of_wp (seals s.world (h.running running))
  · rw [run]
    exact ⟨Writing.relax done, fun _ => done, h.fresh, h.spent⟩
  rw [run]
  cases stop with
  | error e => exact ⟨Writing.relax done, fun _ => done, h.fresh, h.spent⟩
  | panic => exact ⟨done, fun halted => by simp [after] at halted, h.fresh, h.spent⟩
  | hang => exact ⟨Writing.relax done, fun halted => by simp [after] at halted, h.fresh, h.spent⟩

theorem counted_step {s : System T} {event : Event T} (h : Counted crypto suite client server s)
    (possible : Possible crypto suite s event) :
    Counted crypto suite client server (s.step net crypto suite event) := by
  cases halted : s.halted with
  | true =>
    unfold step
    rw [if_pos halted]
    exact h
  | false =>
    unfold step
    rw [if_neg (by simp [halted])]
    cases event with
    | peer _ =>
      have later := send_fresh possible h.fresh
      refine ⟨h.stopped, h.running, later.1, ?_⟩
      have grown := (h.spent.concat h.fresh).mono later.2
      simpa [Peer.send] using grown
    | tamper _ => exact ⟨h.stopped.congr rfl rfl rfl, fun r => (h.running r).congr rfl rfl rfl, h.fresh, h.spent⟩
    | read _ _ _ => exact counted_after h (seals_read _ _ _) _ halted
    | write _ => exact counted_after h (seals_write _) _ halted
    | close => exact counted_after h seals_close _ halted

theorem counted_connected {s : System T} (h : Connected crypto suite client server s) :
    Counted crypto suite client server s := by
  have writing : Writing crypto suite client 0 s.world :=
    ⟨h.suite_eq, h.write_eq ▸ fresh_start, h.sealed_eq ▸ spent_nil _⟩
  refine ⟨writing.relax, fun _ => writing, ?_, ?_⟩
  · rw [h.peer_eq]
    exact fresh_start
  rw [h.peer_eq]
  exact spent_nil _

theorem Counted.nodup {s : System T} (h : Counted crypto suite client server s)
    (distinct : Distinct crypto suite client server s.world.session.write.generation s.peer.keys.generation) :
    s.pairs.Nodup := by
  have ours := h.stopped.spent.nodup h.stopped.fresh distinct.client_inj
  have theirs := (h.spent.mono (Nat.le_succ _)).nodup h.fresh distinct.server_inj
  rw [pairs, List.nodup_append]
  refine ⟨ours.1, theirs.1, ?_⟩
  intro a ha b hb same
  obtain ⟨i, hi, keyA⟩ := ours.2 a ha
  obtain ⟨j, hj, keyB⟩ := theirs.2 b hb
  exact distinct.apart i hi j hj (by rw [← keyA, ← keyB, same])

theorem written_mono {start : Peer} (acts : List Sealing) :
    start.written <+: (peerAfter crypto suite start acts).written := by
  induction acts generalizing start with
  | nil => exact List.prefix_refl _
  | cons act acts ih =>
    refine List.IsPrefix.trans ?_ (@ih (start.send crypto suite act))
    simp only [Peer.send]
    split
    · exact List.prefix_append _ _
    · exact List.prefix_refl _

structure Tracks (crypto : Crypto) (suite : Suite) (start : Peer) (acts : List Sealing) (s : System T) : Prop where
  peer_eq : s.peer = peerAfter crypto suite start acts
  honest : AllHonest crypto suite start acts
  fits : Run.Along (Peer.send crypto suite) Fits start acts
  running : s.halted = false → InStep (fun _ => True) crypto suite start acts s.returned s.world
  returned : s.returned <+: s.peer.written

section
variable {start : Peer} {acts : List Sealing} {s : System T}

theorem InStep.written (h : InStep good crypto suite start acts returned w) :
    returned <+: (peerAfter crypto suite start acts).written := by
  obtain ⟨consumed, rest, _, rfl, bytes, -⟩ := h
  have more := @written_mono crypto suite (peerAfter crypto suite start consumed) rest
  rw [← bytes] at more
  rw [show peerAfter crypto suite start (consumed ++ rest) = _ from Run.final_append _ start consumed rest]
  exact (List.prefix_append _ _).trans more

theorem InStep.regood {good' : T → Prop}
    (h : InStep good crypto suite start acts returned w) (ok : good' w.transport) :
    InStep good' crypto suite start acts returned w := by
  obtain ⟨consumed, rest, pending, split, bytes, reading⟩ := h
  exact ⟨consumed, rest, pending, split, bytes, reading.suite_eq, reading.keys_eq, reading.stream_eq,
    reading.pending_eq, ok⟩

section
variable (h : Tracks crypto suite start acts s)
include h

theorem tracks_after {bytes : α → List UInt8}
    (done : wp x (fun a w => InStep (fun _ => True) crypto suite start acts (s.returned ++ bytes a) w)
      (quiet (InStep (fun _ => True) crypto suite start acts s.returned)) s.world) :
    Tracks crypto suite start acts (s.after bytes (x s.world)) := by
  obtain ⟨a, w, run, done⟩ | ⟨stop, w, run, done⟩ := run_of_wp done
  · rw [run]
    refine ⟨h.peer_eq, h.honest, h.fits, fun _ => done, ?_⟩
    have front := InStep.written done
    rw [← h.peer_eq] at front
    exact front
  rw [run]
  cases stop with
  | error e => exact ⟨h.peer_eq, h.honest, h.fits, fun _ => done, h.returned⟩
  | panic => exact ⟨h.peer_eq, h.honest, h.fits, fun halted => by simp [after] at halted, h.returned⟩
  | hang => exact ⟨h.peer_eq, h.honest, h.fits, fun halted => by simp [after] at halted, h.returned⟩

theorem tracks_written (running : s.halted = false)
    (kept : ∀ side : Session, Preserves (fun w : World T => ReadSide side w.session) x) :
    Tracks crypto suite start acts (s.after (fun _ => []) (x s.world)) := by
  have inStep := h.running running
  apply tracks_after h
  apply wp_mono (kept s.world.session s.world ⟨rfl, rfl, rfl, rfl, rfl⟩)
  · intro _ w same
    rw [List.append_nil]
    exact inStep.readSide same
  exact fun stop _ same => quiet_of stop (inStep.readSide same)

theorem tracks_read (running : s.halted = false)
    (script : Script crypto suite server start acts) {opens : Opener} (ideal : Ideal opens s.peer.log)
    (accepts : Accepts net s.world.transport) (size fuel : Nat) :
    Tracks crypto suite start acts (s.after id (Tls.read net crypto opens size fuel s.world)) := by
  obtain ⟨_, here, receive, send⟩ := accepts
  rw [h.peer_eq] at ideal
  apply tracks_after h
  apply wp_mono (wp_read ⟨receive, send⟩ script ideal size fuel ((h.running running).regood here))
  · exact fun _ _ inStep => inStep.regood trivial
  intro stop w inStep
  cases stop with
  | error e => exact InStep.regood inStep trivial
  | panic => trivial
  | hang => trivial

theorem tracks_step {event : Event T}
    (script : Script crypto suite server start acts) (possible : Possible crypto suite s event)
    (undisturbed : Undisturbed net s event) :
    ∃ acts', Tracks crypto suite start acts' (s.step net crypto suite event) := by
  cases halted : s.halted with
  | true =>
    unfold step
    rw [if_pos halted]
    exact ⟨acts, h⟩
  | false =>
    unfold step
    rw [if_neg (by simp [halted])]
    cases event with
    | peer act =>
      have possible : Honest crypto suite (peerAfter crypto suite start acts) act := h.peer_eq ▸ possible
      have room : Fits (peerAfter crypto suite start acts) act := h.peer_eq ▸ undisturbed
      refine ⟨acts ++ [act], ?_, Run.along_append.mpr ⟨h.honest, possible, trivial⟩,
        Run.along_append.mpr ⟨h.fits, room, trivial⟩, fun _ => ?_, ?_⟩
      · rw [peerAfter_concat, ← h.peer_eq]
      · obtain ⟨consumed, rest, pending, same, bytes, reading⟩ := h.running halted
        exact ⟨consumed, rest ++ [act], pending, by rw [same, List.append_assoc], bytes, reading⟩
      · exact h.returned.trans (@written_mono crypto suite s.peer [act])
    | tamper _ =>
      exact ⟨acts, h.peer_eq, h.honest, h.fits,
        fun _ => (h.running halted).readSide ⟨rfl, rfl, rfl, rfl, rfl⟩, h.returned⟩
    | read _ size fuel => exact ⟨acts, tracks_read h halted script possible undisturbed size fuel⟩
    | write data => exact ⟨acts, tracks_written h halted fun _ => readSide_write data⟩
    | close => exact ⟨acts, tracks_written h halted fun _ => readSide_close⟩

end

theorem tracks_connected (h : Connected crypto suite client server s) : Tracks crypto suite s.peer [] s := by
  refine ⟨rfl, trivial, trivial, fun _ => ⟨[], [], [], rfl, ?_, ?_⟩, ?_⟩
  · simp [h.returned_eq, h.peer_eq, peerAfter, Run.final]
  · refine ⟨h.suite_eq, ?_, ?_, ?_, trivial⟩
    · simp [h.read_eq, h.peer_eq, peerAfter, Run.final]
    · simp [h.handshake_eq, h.peer_eq, peerAfter, Run.final]
    · simp [pendingBytes, h.pending_eq, Buffer.slice]
  · simp [h.returned_eq]

end

theorem generation_mono {s : System T} {event : Event T} (counted : Counted crypto suite client server s)
    (possible : Possible crypto suite s event) :
    s.peer.keys.generation ≤ (s.step net crypto suite event).peer.keys.generation := by
  have next := @counted_step T net crypto suite client server s event counted possible
  refine counted.fresh.generation_le next.fresh ?_
  unfold step
  split
  · exact le_rfl
  cases event with
  | peer _ => exact Nat.le_of_lt (send_fresh possible counted.fresh).2
  | tamper _ => exact le_rfl
  | read _ _ _ => exact Nat.le_of_eq (by dsimp only; rw [after_peer])
  | write _ => exact Nat.le_of_eq (by dsimp only; rw [after_peer])
  | close => exact Nat.le_of_eq (by dsimp only; rw [after_peer])

theorem counted_run {s : System T} (h : Counted crypto suite client server s)
    (possible : Run.Along (step net crypto suite) (Possible crypto suite) s events) :
    Counted crypto suite client server (Run.final (step net crypto suite) s events) :=
  Run.final_of_along (fun _ _ => counted_step) h possible

theorem tracks_run {s : System T} (connected : Connected crypto suite client server s)
    (possible : Run.Along (step net crypto suite) (Possible crypto suite) s events)
    (undisturbed : Run.Along (step net crypto suite) (Undisturbed net) s events)
    (inj : KeysDiffer crypto suite server (Run.final (step net crypto suite) s events).peer.keys.generation) :
    ∃ acts, Tracks crypto suite s.peer acts (Run.final (step net crypto suite) s events) := by
  induction events using List.reverseRecOn with
  | nil => exact ⟨[], tracks_connected connected⟩
  | append_singleton events event ih =>
    obtain ⟨possible, lastPossible, -⟩ := Run.along_append.mp possible
    obtain ⟨undisturbed, lastUndisturbed, -⟩ := Run.along_append.mp undisturbed
    have counted := counted_run (counted_connected connected) possible
    rw [Run.final_concat] at inj ⊢
    have older := @generation_mono T net crypto suite client server _ event counted lastPossible
    have injBefore : KeysDiffer crypto suite server
        (Run.final (step net crypto suite) s events).peer.keys.generation :=
      fun i hi j hj => inj i (hi.trans older) j (hj.trans older)
    obtain ⟨acts, tracks⟩ := ih possible undisturbed injBefore
    have script : Script crypto suite server s.peer acts := by
      refine ⟨tracks.honest, tracks.fits, ?_, ?_, tracks.peer_eq ▸ injBefore⟩
      · exact (counted_connected connected).fresh
      · rw [connected.peer_eq]
    exact tracks_step tracks script lastPossible lastUndisturbed

/-- The channel of a connected session: keys and nonces are never used twice, and in an undisturbed
run the bytes returned are a front of the bytes the peer wrote. -/
theorem channel_of_undisturbed (net : Transport T) (crypto : Crypto) (suite : Suite)
    (client server : List UInt8) (s : System T) (connected : Connected crypto suite client server s)
    (events : List (Event T))
    (possible : Run.Along (System.step net crypto suite) (Possible crypto suite) s events)
    (distinct : Distinct crypto suite client server
      (Run.final (System.step net crypto suite) s events).world.session.write.generation
      (Run.final (System.step net crypto suite) s events).peer.keys.generation) :
    (Run.final (System.step net crypto suite) s events).pairs.Nodup ∧
      (Run.Along (System.step net crypto suite) (Undisturbed net) s events →
        (Run.final (System.step net crypto suite) s events).returned <+:
          (Run.final (System.step net crypto suite) s events).peer.written) := by
  constructor
  · exact (counted_run (counted_connected connected) possible).nodup distinct
  intro undisturbed
  obtain ⟨_, tracks⟩ := tracks_run connected possible undisturbed distinct.server_inj
  exact tracks.returned

structure Line where
  inbound : List UInt8
  refuse : Nat

def lineNet : Transport Line where
  send _ line := if line.refuse = 0 then (.ok (), line) else (.error .transport, { line with refuse := line.refuse - 1 })
  receive n line :=
    if line.inbound = [] then (.error .transport, line)
    else (.ok (line.inbound.take n), { line with inbound := line.inbound.drop n })
  receive_le n line bytes h := by
    split at h
    · simp at h
    simp only [Except.ok.injEq] at h
    rw [← h]
    simp

def countingCrypto : Crypto where
  expandLabel secret label n := List.replicate n (secret.headD 0 + if label = "traffic upd" then 1 else 0)
  expandLabel_length _ _ _ := List.length_replicate
  sealRecord _ _ _ _ data := (data, List.replicate 16 0)

def vault (log : List (Keys × Sealing)) : Opener := fun _ key nonce header cipher tag =>
  (log.find? fun entry => entry.1.key = key ∧ entry.1.nonce = nonce ∧ entry.2.header = header ∧
    entry.2.cipher = cipher ∧ entry.2.tag = tag).map fun entry => entry.2.plain

theorem vault_ideal (log : List (Keys × Sealing)) : Ideal (vault log) log := by
  intro _ _ _ _ _ _ _ h
  obtain ⟨entry, found, text⟩ := Option.map_eq_some_iff.mp h
  have matched := List.find?_some found
  simp only [decide_eq_true_eq] at matched
  exact ⟨entry, List.mem_of_find?_eq_some found, matched.1, matched.2.1, matched.2.2.1, matched.2.2.2.1,
    matched.2.2.2.2, text⟩

def recordOf (kind : UInt8) (content : List UInt8) : Sealing where
  kind := kind
  content := content
  padding := 0
  header := [typeApplication, 3, 3] ++ lengthBytes (content.length + 1 + tagLen)
  cipher := content ++ [kind]
  tag := List.replicate 16 0

def onWire (act : Sealing) : List UInt8 := act.header ++ act.cipher ++ act.tag

def firstPeer : Peer := ⟨Keys.fromSecret countingCrypto .chaCha20Poly1305 [1] 0, [], [], []⟩

def justConnected : System Line where
  world :=
    { session :=
        { suite := .chaCha20Poly1305
          read := Keys.fromSecret countingCrypto .chaCha20Poly1305 [1] 0
          write := Keys.fromSecret countingCrypto .chaCha20Poly1305 [100] 0
          record := Buffer.zero
          pending := (0, 0)
          handshake := []
          closed := false }
      transport := ⟨[], 0⟩
      sealed := [] }
  peer := firstPeer
  returned := []
  halted := false

theorem justConnected_connected : Connected countingCrypto .chaCha20Poly1305 [100] [1] justConnected :=
  ⟨rfl, rfl, rfl, rfl, rfl, rfl, rfl, rfl, rfl, rfl⟩

abbrev lineStep : System Line → Event Line → System Line :=
  System.step lineNet countingCrypto .chaCha20Poly1305

abbrev logAfter (acts : List Sealing) : List (Keys × Sealing) :=
  (peerAfter countingCrypto .chaCha20Poly1305 firstPeer acts).log

def deliver (bytes : List UInt8) (refuse : Nat) : Event Line := .tamper fun _ => ⟨bytes, refuse⟩

def updateAsked : Sealing := recordOf typeHandshake [hsKeyUpdate, 0, 0, 1, 1]

def updateTold : Sealing := recordOf typeHandshake [hsKeyUpdate, 0, 0, 1, 0]

/-- The answer to a key update is refused once; the records of one generation of keys are then lost
on the way. -/
def refusedAnswer : List (Event Line) :=
  [.peer updateAsked, deliver (onWire updateAsked) 1, .read (vault (logAfter [updateAsked])) 8 4,
    .peer updateTold, .peer (recordOf typeApplication [65]), .peer updateTold, .peer (recordOf typeApplication [66]),
    deliver (onWire updateTold ++ onWire (recordOf typeApplication [66])) 0,
    .read (vault (logAfter [updateAsked, updateTold, recordOf typeApplication [65], updateTold,
      recordOf typeApplication [66]])) 8 4]

instance (peer : Peer) (act : Sealing) : Decidable (Honest countingCrypto .chaCha20Poly1305 peer act) :=
  decidable_of_iff (act.kind ≠ 0 ∧ act.cipher.length = act.plain.length ∧ peer.keys.sequence + 1 < 2 ^ 64 ∧
    (peer.settled countingCrypto .chaCha20Poly1305 act).isSome)
    ⟨fun h => ⟨h.1, h.2.1, h.2.2.1, h.2.2.2⟩, fun h => ⟨h.1, h.2, h.3, h.4⟩⟩

theorem refused_answer_skips_bytes : Connected countingCrypto .chaCha20Poly1305 [100] [1] justConnected ∧
      Run.Along lineStep (Possible countingCrypto .chaCha20Poly1305) justConnected refusedAnswer ∧
      Distinct countingCrypto .chaCha20Poly1305 [100] [1]
        (Run.final lineStep justConnected refusedAnswer).world.session.write.generation
        (Run.final lineStep justConnected refusedAnswer).peer.keys.generation ∧
      (Run.final lineStep justConnected refusedAnswer).returned = [66] ∧
      (Run.final lineStep justConnected refusedAnswer).peer.written = [65, 66] ∧
      ¬ (Run.final lineStep justConnected refusedAnswer).returned <+:
        (Run.final lineStep justConnected refusedAnswer).peer.written := by
  have ours : (Run.final lineStep justConnected refusedAnswer).world.session.write.generation = 1 := by
    decide +kernel
  have theirs : (Run.final lineStep justConnected refusedAnswer).peer.keys.generation = 3 := by decide +kernel
  refine ⟨justConnected_connected, ?_, ?_, by decide +kernel, by decide +kernel, by decide +kernel⟩
  · exact ⟨show Honest _ _ _ _ by decide +kernel, trivial, vault_ideal _, show Honest _ _ _ _ by decide +kernel,
      show Honest _ _ _ _ by decide +kernel, show Honest _ _ _ _ by decide +kernel,
      show Honest _ _ _ _ by decide +kernel, trivial, vault_ideal _, trivial⟩
  · exact ⟨by decide +kernel, by decide +kernel, by decide +kernel⟩

def ticket : Sealing := recordOf typeHandshake [4, 0, 0, 1, 0]

def beforeLoss : List Sealing := [recordOf typeApplication [65], ticket, updateAsked, recordOf typeApplication [66]]

/-- Between two bytes of the peer come a ticket and an update of its keys; a later record is lost. -/
def lostRecord : List (Event Line) :=
  beforeLoss.map .peer ++ [deliver (beforeLoss.flatMap onWire) 0, .read (vault (logAfter beforeLoss)) 8 8,
    .read (vault (logAfter beforeLoss)) 8 8, .peer (recordOf typeApplication [67]),
    .peer (recordOf typeApplication [68]), deliver (onWire (recordOf typeApplication [68])) 0,
    .read (vault (logAfter (beforeLoss ++ [recordOf typeApplication [67], recordOf typeApplication [68]]))) 8 4]

theorem line_accepts {line : Line} (free : line.refuse = 0) : Accepts lineNet line := by
  refine ⟨fun line => line.refuse = 0, free, ?_, ?_⟩
  · intro line n h
    simp only [lineNet]
    split <;> exact h
  · intro line _ h
    simp [lineNet, h]

theorem vault_ideal_of_eq {log sent : List (Keys × Sealing)} (same : log = sent) : Ideal (vault sent) log := by
  rw [same]
  exact vault_ideal sent

theorem fits_application (peer : Peer) (content : List UInt8) : Fits peer (recordOf typeApplication content) :=
  fun handshake => absurd handshake (by decide : typeApplication ≠ typeHandshake)

theorem lostRecord_undisturbed : Run.Along lineStep (Undisturbed lineNet) justConnected lostRecord :=
  ⟨fits_application _ _, fun _ => by decide +kernel, fun _ => by decide +kernel, fits_application _ _, trivial,
    line_accepts (by decide +kernel), line_accepts (by decide +kernel), fits_application _ _, fits_application _ _,
    trivial, line_accepts (by decide +kernel), trivial⟩

theorem lostRecord_possible :
    Run.Along lineStep (Possible countingCrypto .chaCha20Poly1305) justConnected lostRecord :=
  ⟨show Honest _ _ _ _ by decide +kernel, show Honest _ _ _ _ by decide +kernel,
    show Honest _ _ _ _ by decide +kernel, show Honest _ _ _ _ by decide +kernel, trivial,
    vault_ideal_of_eq (by decide +kernel), vault_ideal_of_eq (by decide +kernel),
    show Honest _ _ _ _ by decide +kernel, show Honest _ _ _ _ by decide +kernel, trivial,
    vault_ideal_of_eq (by decide +kernel), trivial⟩

theorem lostRecord_channel : (Run.final lineStep justConnected lostRecord).returned = [65, 66] ∧
      (Run.final lineStep justConnected lostRecord).pairs.Nodup ∧
      (Run.final lineStep justConnected lostRecord).returned <+:
        (Run.final lineStep justConnected lostRecord).peer.written := by
  have ours : (Run.final lineStep justConnected lostRecord).world.session.write.generation = 1 := by decide +kernel
  have theirs : (Run.final lineStep justConnected lostRecord).peer.keys.generation = 1 := by decide +kernel
  have distinct : Distinct countingCrypto .chaCha20Poly1305 [100] [1] 1 1 :=
    ⟨by decide +kernel, by decide +kernel, by decide +kernel⟩
  obtain ⟨fresh, kept⟩ := channel_of_undisturbed lineNet countingCrypto .chaCha20Poly1305 [100] [1] justConnected
    justConnected_connected lostRecord lostRecord_possible (by rw [ours, theirs]; exact distinct)
  have front := kept lostRecord_undisturbed
  refine ⟨by decide +kernel, fresh, ?_⟩
  unfold lineStep
  exact front

end AerOS.Proof.Tls
