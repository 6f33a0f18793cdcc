import AerOS.Spec.Tcp

namespace AerOS.Proof.Tcp
open AerOS.Tcp Tcb

variable {tcb : Tcb} {segment : Incoming} {payload : List UInt8} {fin : Bool}

theorem mergeOutOfOrder_peerClosed (turns : Nat) (tcb : Tcb) :
    (mergeOutOfOrder turns tcb).peerClosed = tcb.peerClosed := by
  induction turns generalizing tcb with
  | zero => rfl
  | succ turns ih =>
    unfold mergeOutOfOrder
    split
    · rfl
    rw [ih]
    split <;> rfl

section
variable (isOpen : tcb.peerClosed = false)
include isOpen

theorem closeConnection_peerClosed : tcb.closeConnection.peerClosed = false := by
  unfold closeConnection
  split
  · rfl
  · exact isOpen

theorem takeInOrder_peerClosed :
    (tcb.takeInOrder payload fin).peerClosed = true ↔ fin = true ∧ payload.length ≤ tcb.free := by
  unfold takeInOrder
  rw [mergeOutOfOrder_peerClosed]
  split
  · next ends => simpa [finish, ends.2.1] using Nat.le_trans (Nat.le_of_eq ends.1.symm) (Nat.min_le_right _ _)
  next goes =>
  simp only [advance, isOpen, Bool.false_eq_true, false_iff, not_and]
  intro isFin fits
  exact goes ⟨Nat.min_eq_left fits, isFin, by rw [Nat.min_eq_left fits]; rfl⟩

theorem receive_peerClosed :
    (tcb.receive segment).peerClosed = true ↔ Receives tcb.state ∧ segment.fin = true ∧
      seqLe segment.seq tcb.rcvNxt = true ∧
      segment.payload.length - (tcb.rcvNxt - segment.seq).toNat ≤ tcb.free := by
  have receives : tcb.canReceive = true ↔ Receives tcb.state := by
    simp [canReceive, Receives, isOpen, or_assoc]
  unfold receive
  split
  · next idle =>
    simp only [isOpen, Bool.false_eq_true, false_iff]
    rintro ⟨can, isFin, -⟩
    simp [receives.mpr can, isFin] at idle
  next busy =>
    have can : Receives tcb.state := by
      rw [← receives]
      by_contra cannot
      simp [cannot] at busy
    split
    · next before => simp [takeInOrder_peerClosed isOpen, can, seqLe, before]
    next notBefore =>
      split
      · next same => simp [takeInOrder_peerClosed isOpen, can, seqLe, same]
      next apart =>
        have beyond : seqLe segment.seq tcb.rcvNxt = false := by simp [seqLe, apart, notBefore]
        split
        · unfold noteOutOfOrder
          dsimp only
          split <;> simp [isOpen, beyond]
        · simp [isOpen, beyond]

end

theorem input_peerClosed (finAcked : Bool) (isOpen : tcb.peerClosed = false) :
    (tcb.input segment finAcked).peerClosed = true ↔
      (segment.rst = false ∧ segment.syn = false ∧ segment.ack = true) ∧ Receives tcb.state ∧ segment.fin = true ∧
      seqLe segment.seq tcb.rcvNxt = true ∧
      segment.payload.length - (tcb.rcvNxt - segment.seq).toNat ≤ tcb.free := by
  unfold input
  split
  · next closed => simp [isOpen, Receives, closed]
  split
  · next reset => split <;> simp [closeConnection_peerClosed isOpen, isOpen, reset]
  next plain =>
    split
    · next other =>
      simp only [isOpen, Bool.false_eq_true, false_iff]
      rintro ⟨⟨-, noSyn, isAck⟩, -⟩
      simp [noSyn, isAck] at other
    next asked =>
      have reads : segment.rst = false ∧ segment.syn = false ∧ segment.ack = true := by simpa [plain] using asked
      split
      · next state => simp [@receive_peerClosed { tcb with state := .finWait2 } segment isOpen, Receives, state, reads, free]
      · next state => simp [@receive_peerClosed { tcb with state := .timeWait } segment isOpen, Receives, state]
      · next state => simp [Receives, state, closeConnection_peerClosed isOpen]
      · simp [receive_peerClosed isOpen, reads]

/-- The stream ends only with a FIN that is next in order, unless an old FIN comes in: `input` cuts what it has of a
segment off and then takes the FIN for one at `rcv_nxt`. -/
theorem fin_exact_iff (tcb : Tcb) (segment : Incoming) (finAcked : Bool) :
    (tcb.peerClosed = false → (tcb.input segment finAcked).peerClosed = true →
      segment.fin = true ∧ finSeq segment = rcvTaken tcb segment) ↔ ¬ OldFin tcb segment := by
  constructor
  · intro exactly old
    have before : seqLe segment.seq tcb.rcvNxt = true := by simp [seqLe, old.before]
    have ended := old.ended
    have closes := (input_peerClosed finAcked old.isOpen).mpr ⟨old.plain, old.receives, old.fin, before, by omega⟩
    obtain ⟨-, here⟩ := exactly old.isOpen closes
    rw [finSeq, rcvTaken, if_pos before, Nat.sub_eq_zero_of_le (Nat.le_of_lt ended), Nat.zero_min] at here
    have gap : tcb.rcvNxt - segment.seq = UInt32.ofNat segment.payload.length := by
      grind
    rw [gap, UInt32.toNat_ofNat'] at ended
    exact absurd ended (Nat.not_lt.mpr (Nat.mod_le _ _))
  intro notOld isOpen closes
  obtain ⟨plain, receives, isFin, before, fits⟩ := (input_peerClosed finAcked isOpen).mp closes
  refine ⟨isFin, ?_⟩
  have reaches : (tcb.rcvNxt - segment.seq).toNat ≤ segment.payload.length := by
    by_contra short
    rcases (Bool.or_eq_true _ _).mp before with same | less
    · simp [beq_iff_eq.mp same] at short
    · exact notOld ⟨isOpen, receives, plain, isFin, less, Nat.not_le.mp short⟩
  have split : UInt32.ofNat segment.payload.length = tcb.rcvNxt - segment.seq +
      UInt32.ofNat (segment.payload.length - (tcb.rcvNxt - segment.seq).toNat) := by
    nth_rewrite 1 [← Nat.add_sub_of_le reaches]
    rw [UInt32.ofNat_add, UInt32.ofNat_toNat]
  rw [finSeq, rcvTaken, if_pos before, Nat.min_eq_left fits, split]
  grind

def connection : Tcb := ⟨.established, false, false, 1000, 0, false, []⟩

theorem expected_fin_exact : (connection.input ⟨1000, true, false, false, true, [7]⟩ false).peerClosed = true ∧
    finSeq ⟨1000, true, false, false, true, [7]⟩ = rcvTaken connection ⟨1000, true, false, false, true, [7]⟩ := by
  have closes : (connection.input ⟨1000, true, false, false, true, [7]⟩ false).peerClosed = true := by decide
  refine ⟨closes, ((fin_exact_iff _ _ _).mpr ?_ rfl closes).2⟩
  exact fun old => absurd old.before (by decide)

/-- A FIN alone, five hundred bytes back. -/
theorem old_fin_ends_stream : (connection.input ⟨500, true, false, false, true, []⟩ false).peerClosed = true ∧
    finSeq ⟨500, true, false, false, true, []⟩ ≠ rcvTaken connection ⟨500, true, false, false, true, []⟩ := by
  decide

end AerOS.Proof.Tcp
