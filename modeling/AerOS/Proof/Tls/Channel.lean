import AerOS.Proof.Tls.Keys
import Mathlib.Data.List.GetD

namespace AerOS.Proof.Tls
open Lib Lib.Action AerOS.Tls List

variable {T : Type} {net : Transport T} {crypto : Crypto} {suite : Suite} {opens : Opener}
variable {good : T → Prop}
variable {ok : Unit → World T → Prop} {err : Stop → World T → Prop} {act : Sealing}

@[simp] theorem wp_update (f : Session → Session)
    {w : World T} : wp (update f) ok err w ↔ ok () { w with session := f w.session } := Iff.rfl

def pendingBytes (s : Session) : List UInt8 := s.record.slice s.pending.1 (s.pending.2 - s.pending.1)

structure Reading (good : T → Prop) (suite : Suite) (keys : Keys) (stream pending : List UInt8)
    (w : World T) : Prop where
  suite_eq : w.session.suite = suite
  keys_eq : w.session.read = keys
  stream_eq : w.session.handshake = stream
  pending_eq : pendingBytes w.session = pending
  accepting : good w.transport

abbrev Following (good : T → Prop) (suite : Suite) (peer : Peer) : List UInt8 → World T → Prop :=
  Reading good suite peer.keys peer.unfinished

def quiet (keep : World T → Prop) : Stop → World T → Prop
  | .error _, w => keep w
  | _, _ => True

theorem quiet_of {keep : World T → Prop} {w : World T} (stop : Stop) (h : keep w) : quiet keep stop w := by
  cases stop with
  | error e => exact h
  | panic => trivial
  | hang => trivial

structure Good (net : Transport T) (good : T → Prop) : Prop where
  receive : ∀ t n, good t → good (net.receive n t).2
  send : ∀ t data, good t → (net.send data t).1 = .ok () ∧ good (net.send data t).2

section
variable {keys : Keys} {stream pending : List UInt8} {w : World T}

theorem Reading.empty (h : Reading good suite keys stream [] w) :
    w.session.pending.2 - w.session.pending.1 = 0 := by
  have := congrArg length h.pending_eq
  simpa [pendingBytes] using this

theorem Reading.record (h : Reading good suite keys stream [] w) (record : Buffer recordBuffer) :
    Reading good suite keys stream [] { w with session := { w.session with record := record } } where
  suite_eq := h.suite_eq
  keys_eq := h.keys_eq
  stream_eq := h.stream_eq
  pending_eq := by simp [pendingBytes, h.empty, Buffer.slice]
  accepting := h.accepting

theorem wp_receive (hgood : Good net good) (n : Nat) (h : Reading good suite keys stream pending w) :
    wp (receive net n) (fun _ w' => Reading good suite keys stream pending w')
      (quiet (Reading good suite keys stream pending)) w := by
  have moved : Reading good suite keys stream pending { w with transport := (net.receive n w.transport).2 } :=
    ⟨h.suite_eq, h.keys_eq, h.stream_eq, h.pending_eq, hgood.receive w.transport n h.accepting⟩
  unfold wp receive
  cases answer : net.receive n w.transport with
  | mk result t =>
    rw [answer] at moved
    cases result <;> exact moved

theorem wp_send (hgood : Good net good) (data : List UInt8) (h : Reading good suite keys stream pending w) :
    wp (send net data) (fun _ w' => Reading good suite keys stream pending w') (fun _ _ => False) w := by
  have sent := hgood.send w.transport data h.accepting
  unfold wp send
  cases answer : net.send data w.transport with
  | mk result t =>
    rw [answer] at sent
    cases result with
    | error e => exact absurd sent.1 (by simp)
    | ok _ => exact ⟨h.suite_eq, h.keys_eq, h.stream_eq, h.pending_eq, sent.2⟩

end

theorem unpad_padding {record : Buffer recordBuffer} {stop padding : Nat} (low : 5 < stop)
    (last : record.byte (stop - 1) ≠ 0) (zeros : ∀ i, stop ≤ i → i < stop + padding → record.byte i = 0) :
    unpad record (stop + padding) = stop := by
  induction padding with
  | zero =>
    cases stop with
    | zero => omega
    | succ stop =>
      rw [Nat.add_zero, unpad, if_neg]
      exact fun h => last h.2
  | succ padding ih =>
    rw [← Nat.add_assoc, unpad, if_pos ⟨by omega, zeros _ (by omega) (by omega)⟩]
    exact ih fun i lower _ => zeros i lower (by omega)

theorem plain_length (act : Sealing) : act.plain.length = act.content.length + 1 + act.padding := by
  simp only [Sealing.plain, length_append, length_cons, length_replicate]
  omega

theorem plain_padding (act : Sealing) {i : Nat} (lower : act.content.length < i) :
    act.plain.getD i 0 = 0 := by
  obtain ⟨j, rfl⟩ := Nat.exists_eq_add_of_lt lower
  have beyond : (act.content ++ act.kind :: replicate act.padding 0)[act.content.length + j + 1]? =
      (replicate act.padding 0)[j]? := by
    rw [getElem?_append_right (by omega),
      show act.content.length + j + 1 - act.content.length = j + 1 by omega, getElem?_cons_succ]
  rw [Sealing.plain, getD, beyond]
  rcases lt_or_ge j act.padding with inside | outside
  · simp [inside]
  · simp [outside]

theorem opened_record {record : Buffer recordBuffer} {act : Sealing} (kind : act.kind ≠ 0)
    (fits : 5 + act.plain.length ≤ recordBuffer) :
    unpad (record.put 5 act.plain) (5 + act.plain.length) = 5 + act.content.length + 1 ∧
      (record.put 5 act.plain).byte (5 + act.content.length) = act.kind ∧
      (record.put 5 act.plain).slice 5 act.content.length = act.content := by
  have length := plain_length act
  have byteAt : ∀ i < act.plain.length, (record.put 5 act.plain).byte (5 + i) = act.plain.getD i 0 := by
    intro i hi
    rw [Buffer.byte_put_of_mem _ fits (by omega) (by omega), Nat.add_sub_cancel_left]
  have kindAt : (record.put 5 act.plain).byte (5 + act.content.length) = act.kind := by
    rw [byteAt _ (by omega)]
    simp [Sealing.plain, getD]
  refine ⟨?_, kindAt, ?_⟩
  · rw [length, ← Nat.add_assoc]
    apply unpad_padding (by omega)
    · rw [show 5 + (act.content.length + 1) - 1 = 5 + act.content.length by omega, kindAt]
      exact kind
    intro i _ _
    obtain ⟨j, rfl⟩ := Nat.exists_eq_add_of_le (show 5 ≤ i by omega)
    rw [byteAt j (by omega), plain_padding act (by omega)]
  apply ext_getElem (by simp)
  intro i h₁ h₂
  have inside : i < act.plain.length := by omega
  have read : ((record.put 5 act.plain).slice 5 act.content.length)[i] =
      (record.put 5 act.plain).byte (5 + i) := by simp [Buffer.slice]
  rw [read, byteAt i inside, getD_eq_getElem _ _ inside]
  exact getElem_append_left h₂

structure Script (crypto : Crypto) (suite : Suite) (secret : List UInt8) (start : Peer)
    (acts : List Sealing) : Prop where
  honest : AllHonest crypto suite start acts
  fits : Run.Along (Peer.send crypto suite) Fits start acts
  fresh : Fresh crypto suite secret start.keys
  empty : start.log = []
  inj : ∀ i ≤ (peerAfter crypto suite start acts).keys.generation,
    ∀ j ≤ (peerAfter crypto suite start acts).keys.generation,
      (chain crypto suite secret i).key = (chain crypto suite secret j).key → i = j

def Delivered (good : T → Prop) (suite : Suite) (peer : Peer) (rest : List Sealing)
    (opened : UInt8 × Nat × Nat) (w : World T) : Prop :=
  ∃ act post, rest = act :: post ∧ opened.1 = act.kind ∧ opened.2.2 - opened.2.1 = act.content.length ∧
    w.session.record.slice opened.2.1 act.content.length = act.content ∧
    Reading good suite peer.keys.bumped peer.unfinished [] w

section
variable {I : World T → Prop} {D : UInt8 × Nat × Nat → World T → Prop} {E : Stop → World T → Prop} {w : World T}
variable (active : ∀ w, I w → w.session.read.active = true) (fails : ∀ stop w, I w → E stop w)
include active fails

theorem acceptRecord_rule (outer : UInt8) {length : Nat} (high : length ≤ maxRecord + 256)
    (opening : ∀ stop w, 5 + tagLen < stop → stop ≤ recordBuffer → I w → wp (openRecord opens stop) D E w)
    (h : I w) :
    wp (acceptRecord opens outer length) (fun accepted w' => match accepted with
        | none => I w'
        | some opened => D opened w') E w := by
  rw [acceptRecord, wp_bind, wp_get]
  dsimp only
  split
  · split
    · exact fails _ w h
    · exact h
  rw [active w h]
  simp only [Bool.not_true, Bool.false_eq_true, if_false]
  split
  · exact fails _ w h
  rw [wp_bind]
  exact opening _ w (by omega) (by unfold recordBuffer; omega) h

theorem readRecord_rule (fill : ∀ rounds offset remaining, Keeps I E (readExactFrom net rounds offset remaining))
    (opening : ∀ stop w, 5 + tagLen < stop → stop ≤ recordBuffer → I w → wp (openRecord opens stop) D E w)
    (fuel : Nat) (h : I w) : wp (readRecord net opens fuel) D E w := by
  induction fuel generalizing w with
  | zero => exact fails _ w h
  | succ fuel ih =>
    rw [readRecord, wp_bind]
    apply wp_mono (fill _ _ _ w h) _ (fun _ _ kept => kept)
    intro _ w₁ h₁
    rw [wp_bind, wp_get]
    dsimp only
    split
    · exact fails _ w₁ h₁
    rw [wp_bind]
    apply wp_mono (fill _ _ _ w₁ h₁) _ (fun _ _ kept => kept)
    intro _ w₂ h₂
    rw [wp_bind]
    apply wp_mono (acceptRecord_rule active fails _ (by omega) opening h₂) _ (fun _ _ kept => kept)
    intro accepted w₃ h₃
    cases accepted with
    | none => exact ih h₃
    | some _ => exact h₃

end

section
variable {secret : List UInt8} {start : Peer} {consumed rest : List Sealing} {w : World T}

theorem Script.front (h : Script crypto suite secret start (consumed ++ rest)) :
    Fresh crypto suite secret (peerAfter crypto suite start consumed).keys :=
  (peerAfter_fresh (Run.along_append.mp h.honest).1 h.fresh).1

theorem Script.next (h : Script crypto suite secret start (consumed ++ act :: rest)) :
    Honest crypto suite (peerAfter crypto suite start consumed) act ∧
      Fits (peerAfter crypto suite start consumed) act :=
  ⟨(Run.along_append.mp h.honest).2.1, (Run.along_append.mp h.fits).2.1⟩

theorem wp_bumpRead {keys : Keys} {stream : List UInt8} (h : Reading good suite keys stream [] w) :
    wp bumpRead (fun _ w' => w'.session.record = w.session.record ∧
      Reading good suite keys.bumped stream [] w') (quiet (Reading good suite keys stream [])) w := by
  rw [bumpRead, wp_bind, wp_get]
  split
  · exact trivial
  · exact ⟨rfl, h.suite_eq, by rw [← h.keys_eq]; rfl, h.stream_eq, h.pending_eq, h.accepting⟩

section
variable (script : Script crypto suite secret start (consumed ++ rest))
include script

section
variable (ideal : Ideal opens (peerAfter crypto suite start (consumed ++ rest)).log)
include ideal

theorem wp_openRecord {stop : Nat} (low : 5 + tagLen < stop) (high : stop ≤ recordBuffer)
    (h : Following good suite (peerAfter crypto suite start consumed) [] w) :
    wp (openRecord opens stop) (Delivered good suite (peerAfter crypto suite start consumed) rest)
      (quiet (Following good suite (peerAfter crypto suite start consumed) [])) w := by
  rw [openRecord, wp_bind, wp_get]
  dsimp only
  cases result : opens w.session.suite w.session.read.key w.session.read.nonce (w.session.record.slice 0 5)
      (w.session.record.slice 5 (stop - tagLen - 5)) (w.session.record.slice (stop - tagLen) tagLen) with
  | none => exact h
  | some plain =>
    obtain ⟨entry, member, key, nonce, -, cipher, -, text⟩ := ideal _ _ _ _ _ _ _ result
    obtain ⟨post, split⟩ := entry_at script.inj script.honest script.fresh le_rfl script.empty member
      (by rw [key, h.keys_eq]) (by rw [nonce, h.keys_eq])
    rw [split] at script
    have honest := script.next.1
    have length : entry.2.plain.length = stop - tagLen - 5 := by
      rw [← honest.cipher_length, cipher, Buffer.length_slice]
    have stopEq : stop - tagLen = 5 + entry.2.plain.length := by omega
    rw [wp_bind, ← text]
    obtain ⟨last, kind, content⟩ := @opened_record w.session.record entry.2 honest.kind_ne (by omega)
    rw [wp_update, wp_bind]
    apply wp_mono (wp_bumpRead (h.record _))
    · intro _ w' moved
      rw [wp_bind, wp_get, moved.1, stopEq, last, if_neg (by omega)]
      refine ⟨entry.2, post, split, ?_, ?_, ?_, moved.2⟩
      · simpa using kind
      · simp
      rw [moved.1]
      exact content
    · exact fun _ _ kept => kept

end

end

theorem wp_readRecord (hgood : Good net good) (script : Script crypto suite secret start (consumed ++ rest))
    (ideal : Ideal opens (peerAfter crypto suite start (consumed ++ rest)).log) (fuel : Nat)
    (h : Following good suite (peerAfter crypto suite start consumed) [] w) :
    wp (readRecord net opens fuel) (Delivered good suite (peerAfter crypto suite start consumed) rest)
      (quiet (Following good suite (peerAfter crypto suite start consumed) [])) w := by
  apply readRecord_rule _ (fun stop _ => quiet_of stop)
    (keeps_readExactFrom (fun stop _ => quiet_of stop) (fun n _ => wp_receive hgood n) fun _ _ h => h.record _)
    (fun _ _ low high => wp_openRecord script ideal low high) fuel h
  intro w h
  rw [h.keys_eq]
  exact script.front.onChain.active

end

variable {keys : Keys} {stream pending : List UInt8} {w : World T}
variable {acts : List Sealing} {s : Session}

theorem wp_writeRecord (hgood : Good net good) (contentType : UInt8) {data : List UInt8}
    (small : data.length ≤ outPlain) (h : Reading good suite keys stream pending w) :
    wp (writeRecord net crypto contentType data) (fun _ w' => Reading good suite keys stream pending w')
      (fun stop _ => stop = .panic) w := by
  rw [writeRecord, if_neg (not_lt.mpr small), wp_bind, wp_get]
  dsimp only
  split
  · simp only [wp_bind, wp_modify, bumpWrite, wp_get]
    split
    · rfl
    apply wp_mono (wp_send hgood _ ?_) (fun _ _ sent => sent) (fun _ _ never => never.elim)
    exact ⟨h.suite_eq, h.keys_eq, h.stream_eq, h.pending_eq, h.accepting⟩
  · exact wp_mono (wp_send hgood _ h) (fun _ _ sent => sent) (fun _ _ never => never.elim)

theorem wp_keyUpdate (hgood : Good net good) {total : Nat} (whole : total = 5)
    (flag : w.session.handshake.getD 4 0 ≤ 1) (h : Reading good suite keys stream pending w) :
    wp (keyUpdate net crypto total)
      (fun _ w' => Reading good suite (nextKeys crypto suite keys) stream pending w')
      (fun stop _ => stop = .panic) w := by
  have moved : Reading good suite (nextKeys crypto suite keys) stream pending
      { w with session := { w.session with read := nextKeys crypto w.session.suite w.session.read } } :=
    ⟨h.suite_eq, by simp only [h.suite_eq, h.keys_eq], h.stream_eq, h.pending_eq, h.accepting⟩
  rw [keyUpdate, wp_bind, wp_get]
  rw [if_neg (by simpa [whole] using flag), wp_bind, wp_update]
  split
  · rw [answerKeyUpdate, wp_bind]
    apply wp_mono (wp_writeRecord hgood _ (by decide) moved) _ (fun _ _ panic => panic)
    intro _ w' h'
    exact ⟨h'.suite_eq, h'.keys_eq, h'.stream_eq, h'.pending_eq, h'.accepting⟩
  · exact moved

theorem wp_consume (total : Nat) (h : Reading good suite keys stream pending w)
    (hok : ∀ w', Reading good suite keys (stream.drop total) pending w' → ok () w') :
    wp (consumeHandshake total) ok err w := by
  apply hok
  exact ⟨h.suite_eq, h.keys_eq, by simp [h.stream_eq], h.pending_eq, h.accepting⟩

theorem wp_postHandshake (hgood : Good net good) {rounds : Nat} {keys' : Keys} {rest : List UInt8}
    (settles : settle crypto suite rounds keys stream = some (keys', rest))
    (short : stream.length ≤ handshakeBuffer) (h : Reading good suite keys stream pending w) :
    wp (postHandshake net crypto rounds) (fun _ w' => Reading good suite keys' rest pending w')
      (quiet (Reading good suite keys' rest pending)) w := by
  induction rounds generalizing keys stream w with
  | zero =>
    obtain ⟨rfl, rfl⟩ : keys = keys' ∧ stream = rest := by simpa [settle] using settles
    exact h
  | succ rounds ih =>
    have shorter : ∀ total, (stream.drop total).length ≤ handshakeBuffer := by
      intro total
      rw [length_drop]
      omega
    rw [postHandshake, wp_bind, wp_get]
    simp only [h.stream_eq]
    rw [settle] at settles
    by_cases unfinished : stream.length < 4 ∨ stream.length < 4 + bodyLength stream
    · rw [if_pos unfinished] at settles
      obtain ⟨rfl, rfl⟩ : keys = keys' ∧ stream = rest := by simpa using settles
      split
      · exact h
      split
      · exact h
      rw [if_pos (by omega)]
      exact h
    rw [if_neg unfinished] at settles
    rw [if_neg (by omega), if_neg (by omega), if_neg (by omega)]
    by_cases ticket : stream.getD 0 0 = hsNewSessionTicket
    · rw [if_pos ticket] at settles ⊢
      rw [wp_bind]
      exact wp_consume _ h fun w' h' => ih settles (shorter _) h'
    rw [if_neg ticket] at settles ⊢
    by_cases renewal : stream.getD 0 0 = hsKeyUpdate ∧ 4 + bodyLength stream = 5 ∧ stream.getD 4 0 ≤ 1
    · rw [if_pos renewal] at settles
      rw [if_pos renewal.1, wp_bind]
      apply wp_mono (wp_keyUpdate hgood renewal.2.1 (by rw [h.stream_eq]; exact renewal.2.2) h)
      · intro _ w₁ h₁
        rw [wp_bind]
        exact wp_consume _ h₁ fun w' h' => ih settles (shorter _) h'
      intro _ _ panic
      rw [panic]
      trivial
    · rw [if_neg renewal] at settles
      simp at settles

section
variable {secret : List UInt8} {start : Peer} {consumed rest : List Sealing} {returned : List UInt8}

def InStep (good : T → Prop) (crypto : Crypto) (suite : Suite) (start : Peer) (acts : List Sealing)
    (returned : List UInt8) (w : World T) : Prop :=
  ∃ consumed rest pending, acts = consumed ++ rest ∧
    returned ++ pending = (peerAfter crypto suite start consumed).written ∧
    Following good suite (peerAfter crypto suite start consumed) pending w

theorem peerAfter_concat (act : Sealing) :
    peerAfter crypto suite start (consumed ++ [act]) = (peerAfter crypto suite start consumed).send crypto suite act :=
  Run.final_concat _ _ _ _

theorem inStep_past {post : List Sealing} (pending : List UInt8)
    (bytes : returned ++ pending = ((peerAfter crypto suite start consumed).send crypto suite act).written)
    (h : Following good suite ((peerAfter crypto suite start consumed).send crypto suite act) pending w) :
    InStep good crypto suite start (consumed ++ act :: post) returned w := by
  refine ⟨consumed ++ [act], post, pending, by simp, ?_, ?_⟩
  · rw [peerAfter_concat]
    exact bytes
  rw [peerAfter_concat]
  exact h

theorem send_other {peer : Peer} {act : Sealing} (handshake : act.kind ≠ typeHandshake) :
    (peer.send crypto suite act).keys = peer.keys.bumped ∧
      (peer.send crypto suite act).unfinished = peer.unfinished := by
  simp [Peer.send, Peer.settled, handshake]

theorem wp_handleRecord (hgood : Good net good) (script : Script crypto suite secret start (consumed ++ rest))
    (bytes : returned = (peerAfter crypto suite start consumed).written) {opened : UInt8 × Nat × Nat}
    (h : Delivered good suite (peerAfter crypto suite start consumed) rest opened w) :
    wp (handleRecord net crypto opened.1 opened.2.1 opened.2.2)
      (fun result w' => (∀ out, result = some out → out = []) ∧
        InStep good crypto suite start (consumed ++ rest) returned w')
      (quiet (InStep good crypto suite start (consumed ++ rest) returned)) w := by
  obtain ⟨act, post, rfl, kind, length, content, reading⟩ := h
  have room := script.next.2
  have honest := script.next.1
  rw [handleRecord, kind]
  by_cases application : act.kind = typeApplication
  · have same := @send_other crypto suite (peerAfter crypto suite start consumed) act
      (by rw [application]; decide)
    rw [if_pos application, wp_bind, wp_update]
    refine ⟨by simp, inStep_past act.content ?_ ?_⟩
    · simp [Peer.send, application, bytes]
    rw [Following, same.1, same.2]
    refine ⟨reading.suite_eq, reading.keys_eq, reading.stream_eq, ?_, reading.accepting⟩
    simp only [pendingBytes, length, content]
  have written : ((peerAfter crypto suite start consumed).send crypto suite act).written =
      (peerAfter crypto suite start consumed).written := by
    simp only [Peer.send, if_neg application]
  rw [if_neg application]
  by_cases handshake : act.kind = typeHandshake
  · rw [handshake, if_neg (by decide), if_pos rfl, takeHandshake, wp_bind, wp_bind, wp_get]
    have settles := honest.settles
    simp only [Peer.settled, if_pos handshake] at settles
    obtain ⟨⟨keys', rest'⟩, result⟩ := Option.isSome_iff_exists.mp settles
    have sent : (peerAfter crypto suite start consumed).settled crypto suite act = some (keys', rest') := by
      rw [Peer.settled, if_pos handshake, result]
    have fits := room handshake
    dsimp only
    rw [reading.stream_eq, length, if_neg (by omega), wp_bind, wp_update]
    have appended : Reading good suite (peerAfter crypto suite start consumed).keys.bumped
        ((peerAfter crypto suite start consumed).unfinished ++ act.content) []
        { w with session := { w.session with
          handshake := w.session.handshake ++ w.session.record.slice opened.2.1 act.content.length } } :=
      ⟨reading.suite_eq, reading.keys_eq, by rw [content, reading.stream_eq], reading.pending_eq,
        reading.accepting⟩
    have later : ∀ w', Reading good suite keys' rest' [] w' →
        InStep good crypto suite start (consumed ++ act :: post) returned w' := by
      intro w' h'
      apply inStep_past []
      · rw [append_nil, written, bytes]
      · simpa [Peer.send, sent] using h'
    apply wp_mono (wp_postHandshake hgood result (by rw [length_append]; exact fits) appended)
    · exact fun _ w' h' => ⟨by simp, later w' h'⟩
    intro stop w' h'
    cases stop with
    | error e => exact later w' h'
    | panic => trivial
    | hang => trivial
  · have same := @send_other crypto suite (peerAfter crypto suite start consumed) act handshake
    have past : ∀ w', Reading good suite (peerAfter crypto suite start consumed).keys.bumped
        (peerAfter crypto suite start consumed).unfinished [] w' →
        InStep good crypto suite start (consumed ++ act :: post) returned w' := by
      intro w' h'
      apply inStep_past []
      · rw [append_nil, written, bytes]
      rw [Following, same.1, same.2]
      exact h'
    split
    · rw [wp_bind, wp_get]
      split
      · refine ⟨by simp, past _ ?_⟩
        exact ⟨reading.suite_eq, reading.keys_eq, reading.stream_eq, reading.pending_eq, reading.accepting⟩
      rw [alertError, wp_bind, wp_get]
      split
      · exact past w reading
      · exact past w reading
    · exact past w reading

theorem InStep.pending_empty (h : InStep good crypto suite start acts returned w)
    (none : ¬ w.session.pending.1 < w.session.pending.2) :
    ∃ consumed rest, acts = consumed ++ rest ∧ returned = (peerAfter crypto suite start consumed).written ∧
      Following good suite (peerAfter crypto suite start consumed) [] w := by
  obtain ⟨consumed, rest, pending, split, bytes, reading⟩ := h
  have empty : pending = [] := by
    rw [← reading.pending_eq, pendingBytes, Nat.sub_eq_zero_of_le (not_lt.mp none)]
    rfl
  rw [empty] at bytes reading
  exact ⟨consumed, rest, split, by rw [← bytes, append_nil], reading⟩

theorem InStep.take (h : InStep good crypto suite start acts returned w) {count : Nat}
    (le : count ≤ w.session.pending.2 - w.session.pending.1) :
    InStep good crypto suite start acts (returned ++ w.session.record.slice w.session.pending.1 count)
      { w with session := { w.session with
        pending := (w.session.pending.1 + count, w.session.pending.2) } } := by
  obtain ⟨consumed, rest, pending, split, bytes, reading⟩ := h
  have parts : pendingBytes w.session = w.session.record.slice w.session.pending.1 count ++
      w.session.record.slice (w.session.pending.1 + count)
        (w.session.pending.2 - (w.session.pending.1 + count)) := by
    rw [← Buffer.slice_add, pendingBytes]
    congr 1
    omega
  refine ⟨consumed, rest, _, split, ?_,
    ⟨reading.suite_eq, reading.keys_eq, reading.stream_eq, rfl, reading.accepting⟩⟩
  rw [append_assoc, ← bytes, ← reading.pending_eq, parts]
  rfl

theorem wp_read (hgood : Good net good) (script : Script crypto suite secret start acts)
    (ideal : Ideal opens (peerAfter crypto suite start acts).log) (size fuel : Nat)
    (h : InStep good crypto suite start acts returned w) : wp (Tls.read net crypto opens size fuel)
      (fun out w' => InStep good crypto suite start acts (returned ++ out) w')
      (quiet (InStep good crypto suite start acts returned)) w := by
  induction fuel generalizing w with
  | zero => trivial
  | succ fuel ih =>
    rw [Tls.read, wp_bind, wp_get]
    dsimp only
    split
    · exact h.take (Nat.min_le_right _ _)
    rename_i none
    split
    · change InStep good crypto suite start acts (returned ++ []) w
      rw [append_nil]
      exact h
    obtain ⟨consumed, rest, split, bytes, reading⟩ := h.pending_empty none
    rw [split] at script ideal
    have back : ∀ w', Following good suite (peerAfter crypto suite start consumed) [] w' →
        InStep good crypto suite start acts returned w' :=
      fun w' h' => ⟨consumed, rest, [], split, by rw [append_nil, bytes], h'⟩
    rw [wp_bind, wp_attempt]
    apply wp_mono (wp_readRecord hgood script ideal fuel reading)
    · intro _ w₁ delivered
      rw [wp_pure, wp_bind]
      apply wp_mono (wp_handleRecord hgood script bytes delivered)
      · intro result w₂ handled
        rw [← split] at handled
        cases result with
        | none => exact ih handled.2
        | some out =>
          rw [handled.1 out rfl, wp_pure, append_nil]
          exact handled.2
      · rw [← split]
        exact fun _ _ kept => kept
    intro stop w₁ kept
    cases stop with
    | panic => trivial
    | hang => trivial
    | error e =>
      have kept := back w₁ kept
      unfold closeOnTransport
      split
      · obtain ⟨consumed, rest, pending, split, bytes, reading⟩ := kept
        exact ⟨consumed, rest, pending, split, bytes, reading.suite_eq, reading.keys_eq,
          reading.stream_eq, reading.pending_eq, reading.accepting⟩
      · exact kept

def ReadSide (s s' : Session) : Prop :=
  s'.suite = s.suite ∧ s'.read = s.read ∧ s'.handshake = s.handshake ∧ s'.record = s.record ∧
    s'.pending = s.pending

theorem preserves_writeRecord {P : World T → Prop}
    (blind : ∀ w keys t log, P w → P ⟨{ w.session with write := keys }, t, log⟩) (kind : UInt8)
    (data : List UInt8) : Preserves P (writeRecord net crypto kind data) := by
  have sends : ∀ data, Preserves P (send net data) :=
    keeps_send (fun _ _ h => h) fun w t h => blind w w.session.write t w.sealed h
  intro w h
  rw [writeRecord]
  split
  · exact h
  rw [wp_bind, wp_get]
  dsimp only
  split
  · simp only [wp_bind, wp_modify, bumpWrite, wp_get]
    split
    · exact blind w _ _ _ h
    · exact sends _ _ (blind w _ _ _ h)
  · exact sends _ w h

theorem readSide_write (data : List UInt8) :
    Preserves (fun w : World T => ReadSide s w.session) (Tls.write net crypto data) :=
  keeps_write (fun _ _ h => h) (preserves_writeRecord fun _ _ _ _ h => h) data

theorem readSide_close : Preserves (fun w : World T => ReadSide s w.session) (Tls.close net crypto) := by
  apply preserves_bind
  · apply preserves_get_bind
    intro w h
    split
    · rw [wp_attempt]
      apply wp_mono (preserves_writeRecord (fun _ _ _ _ h => h) _ _ w h) (fun _ _ h' => h')
      intro stop w' h'
      cases stop <;> exact h'
    · exact h
  · exact fun _ => preserves_modify fun _ h => h

theorem InStep.readSide {w' : World T}
    (h : InStep (fun _ => True) crypto suite start acts returned w) (same : ReadSide w.session w'.session) :
    InStep (fun _ => True) crypto suite start acts returned w' := by
  obtain ⟨consumed, rest, pending, split, bytes, reading⟩ := h
  obtain ⟨hsuite, hread, hhandshake, hrecord, hpending⟩ := same
  refine ⟨consumed, rest, pending, split, bytes, ⟨?_, ?_, ?_, ?_, trivial⟩⟩
  · rw [hsuite, reading.suite_eq]
  · rw [hread, reading.keys_eq]
  · rw [hhandshake, reading.stream_eq]
  · rw [pendingBytes, hrecord, hpending]
    exact reading.pending_eq

end

end AerOS.Proof.Tls
