import AerOS.Proof.Raid.Calls

namespace AerOS.Proof.Raid
open AerOS.Raid Lib List Machine
variable {D : Type}

theorem foldl_bits_testBit (failed : Nat → Bool) (count index : Nat) :
    (failedBits failed count).testBit index = (decide (index < count) && failed index) := by
  unfold failedBits
  induction count with
  | zero => simp
  | succ count ih =>
    rw [range_succ, foldl_append, foldl_cons, foldl_nil, Nat.testBit_or, ih, Nat.testBit_shiftLeft]
    rcases Nat.lt_trichotomy index count with lt | rfl | gt
    · have : ¬ index ≥ count := by omega
      simp [lt, this, Nat.lt_succ_of_lt lt]
    · cases failed index <;> simp
    have high : (failed count).toNat.testBit (index - count) = false := by
      cases failed count
      · simp
      · exact Nat.testBit_lt_two_pow (Nat.one_lt_two_pow (by omega))
    have : ¬ index < count + 1 := by omega
    simp [high, this, not_lt.mpr (gt.le)]

theorem failedBits_lt (failed : Nat → Bool) (count : Nat) : failedBits failed count < 2 ^ count := by
  apply Nat.lt_pow_two_of_testBit
  intro _ large
  rw [foldl_bits_testBit]
  simp [not_lt.mpr large]

def headerOf (volume : Volume D) (slot : Nat) : Header where
  uuid := volume.uuid
  level := volume.level
  count := volume.count
  slot := slot
  chunk := volume.chunk % 2 ^ 32
  events := volume.events
  failed := failedBits volume.failed volume.count

theorem ofCode_code (level : Level) : Level.ofCode level.code = some level := by
  cases level <;> rfl

section
variable (volume : Volume D) (slot : Nat)

theorem encodeHeader_slice {offset len : Nat} (before : offset + len ≤ 56) :
    (encodeHeader volume slot).slice offset len = (headerFields volume slot).slice offset len :=
  Buffer.slice_put_other _ (.inl before)

theorem encodeHeader_byte {offset : Nat} (before : offset < 56) :
    (encodeHeader volume slot).byte offset = (headerFields volume slot).byte offset :=
  Buffer.byte_put_of_notMem _ (.inl before)

theorem decode_encode {volume : Volume D} {slot : Nat} (few : volume.count ≤ maxMembers)
    (bound : slot < volume.count) (events : volume.events < 2 ^ 64) :
    decodeHeader (encodeHeader volume slot) = some (headerOf volume slot) := by
  have magicIs : (encodeHeader volume slot).slice 0 8 = magic := by
    rw [encodeHeader_slice volume slot (by decide), headerFields]
    simp (disch := simp) only [Buffer.slice_put_other]
    exact Buffer.slice_put_self _ (by decide) (by decide)
  have checkIs : UInt32.ofNat (ofLe ((encodeHeader volume slot).slice 56 4)) =
      crc32 ((encodeHeader volume slot).slice 0 56) := by
    have covered := encodeHeader_slice volume slot (Nat.le_refl (0 + 56))
    rw [covered, encodeHeader, Buffer.slice_put_self _ (by simp) (by simp), ofLe_leBytes]
    rw [Nat.mod_eq_of_lt (show _ < 256 ^ 4 from UInt32.toNat_lt _), UInt32.ofNat_toNat]
  have slices : (encodeHeader volume slot).slice 8 16 = leBytes 16 volume.uuid.toNat ∧
      (encodeHeader volume slot).slice 28 4 = leBytes 4 volume.chunk ∧
      (encodeHeader volume slot).slice 32 8 = leBytes 8 volume.events := by
    refine ⟨?_, ?_, ?_⟩ <;> rw [encodeHeader_slice volume slot (by decide), headerFields]
    all_goals simp (disch := simp) only [Buffer.slice_put_other, Buffer.slice_put_self]
  have bytes : (encodeHeader volume slot).byte 24 = volume.level.code ∧
      (encodeHeader volume slot).byte 25 = UInt8.ofNat volume.count ∧
      (encodeHeader volume slot).byte 26 = UInt8.ofNat slot ∧
      (encodeHeader volume slot).byte 48 = UInt8.ofNat (failedBits volume.failed volume.count) := by
    refine ⟨?_, ?_, ?_, ?_⟩ <;> rw [encodeHeader_byte volume slot (by decide), headerFields]
    all_goals simp (disch := simp) only [Buffer.byte_put_of_notMem, Buffer.byte_put_single]
  have small : volume.count < 2 ^ 8 := few.trans_lt (by decide)
  have bits : failedBits volume.failed volume.count < 2 ^ 8 := (failedBits_lt _ _).trans_le
      (Nat.pow_le_pow_right (by decide) (few.trans (by decide)))
  have proper : ¬ (volume.count = 0 ∨ volume.count > maxMembers ∨ slot ≥ volume.count) := by omega
  unfold decodeHeader
  simp only [magicIs, checkIs, slices, bytes, ofCode_code]
  simp only [ne_eq, not_true_eq_false, if_false, UInt8.toNat_ofNat', ofLe_leBytes,
    Nat.mod_eq_of_lt small, Nat.mod_eq_of_lt (bound.trans small), Nat.mod_eq_of_lt bits]
  rw [if_neg proper]
  have name : BitVec.ofNat 128 (volume.uuid.toNat % 256 ^ 16) = volume.uuid := by
    rw [Nat.mod_eq_of_lt (show _ < 256 ^ 16 from volume.uuid.isLt), BitVec.ofNat_toNat, BitVec.setWidth_eq]
  rw [name, Nat.mod_eq_of_lt (show _ < 256 ^ 8 from events)]
  rfl

end

open Lib.Action Function
variable [DecidableEq D] {io : Answers D}
variable {member : D} {m m' : Machine D} {count lba slot : Nat} {volume : Volume D}
variable {err : Fault → Machine D → Prop}

omit [DecidableEq D] in
theorem memberRead_wp {ok : Option Run → Machine D → Prop} (missed : ok none m.tick)
    (seen : lba + count ≤ (m.disks member).sectors →
      ok (some fun sector => (m.disks member).data (lba + sector)) m.tick) :
    wp (memberRead io member lba count) ok err m := by
  unfold memberRead
  simp only [wp_bind, wp_get, wp_modify]
  split
  next h => exact seen h.1
  next => exact missed

theorem memberWrite_wp {run : Run} {ok : Bool → Machine D → Prop}
    (outside : (m.disks member).sectors < lba + count → ok false m.tick)
    (stored : lba + count ≤ (m.disks member).sectors → io.write m.transfers member lba = .done →
      ok true (m.tick.store member lba count run)) (lost : ∀ left, lba + count ≤ (m.disks member).sectors →
      io.write m.transfers member lba = .failed left → ok false (m.tick.store member lba count left)) :
    wp (memberWrite io member lba count run) ok err m := by
  unfold memberWrite
  simp only [wp_bind, wp_get, wp_modify]
  split
  next large => exact outside large
  next fits =>
    cases answer : io.write m.transfers member lba with
    | done => exact stored (not_lt.mp fits) answer
    | failed left => exact lost left (not_lt.mp fits) answer

theorem store_other {other : D} (ne : other ≠ member) (lba count : Nat)
    (run : Run) : (m.store member lba count run).disks other = m.disks other :=
  update_of_ne ne _ _

theorem store_data (m : Machine D) (member : D) (lba count : Nat) (run : Run) (sector : Nat) :
    ((m.store member lba count run).disks member).data sector =
      if lba ≤ sector ∧ sector < lba + count then run (sector - lba) else (m.disks member).data sector := by
  unfold store
  dsimp only
  rw [update_self]
  rfl

omit [DecidableEq D] in
theorem header_of_disk (sectors : (m'.disks member).sectors = (m.disks member).sectors)
    (last : (m'.disks member).data ((m.disks member).sectors - 1) =
      (m.disks member).data ((m.disks member).sectors - 1)) : m'.header member = m.header member := by
  unfold header
  rw [sectors, last]

theorem header_store_below (below : lba + count ≤ m.usable member) (run : Run) (other : D) :
    (m.store member lba count run).header other = m.header other := by
  by_cases same : other = member
  · subst same
    apply header_of_disk (store_sectors m other other lba count run)
    rw [store_data, if_neg]
    unfold usable at below
    omega
  · unfold header
    rw [store_other same]

theorem header_store_last (sectors : (m.disks member).sectors ≠ 0) (run : Run) :
    (m.store member ((m.disks member).sectors - 1) 1 run).header member = decodeHeader (run 0) := by
  unfold header
  rw [store_sectors, if_neg sectors, store_data, if_pos (by omega), Nat.sub_self]

def Lands (io : Answers D) (m : Machine D) : Prop :=
  ∀ turn member, io.write turn member ((m.disks member).sectors - 1) = .done

structure Persisted (m m' : Machine D) (volume : Volume D) (slots : List Nat) : Prop where
  volumes : m'.volumes = m.volumes
  sectors : ∀ member, (m'.disks member).sectors = (m.disks member).sectors
  data : ∀ member lba, lba < m.usable member → (m'.disks member).data lba = (m.disks member).data lba
  fresh : ∀ slot ∈ slots, ∀ member, volume.Serves slot member → (m.disks member).sectors ≠ 0 →
    m'.header member = some (headerOf volume slot)
  other : ∀ member, (∀ slot ∈ slots, ¬ volume.Serves slot member) → m'.header member = m.header member

omit [DecidableEq D] in
theorem Persisted.refl_of_none (volumes : m'.volumes = m.volumes) (disks : m'.disks = m.disks)
    (none : ∀ member, volume.Serves slot member → (m.disks member).sectors = 0) :
    Persisted m m' volume [slot] := by
  refine ⟨volumes, fun _ => by rw [disks], fun _ _ _ => by rw [disks], ?_, ?_⟩
  · intro _ mem member serves sectors
    obtain rfl := mem_singleton.mp mem
    exact absurd (none member serves) sectors
  intro member _
  unfold header
  rw [disks]

structure Encodable (volume : Volume D) : Prop where
  few : volume.count ≤ maxMembers
  events : volume.events < 2 ^ 64
  distinct : ∀ member slot slot', volume.Serves slot member → volume.Serves slot' member → slot = slot'

theorem persistSlot_wp (encodable : Encodable volume) (bound : slot < volume.count) (lands : Lands io m) :
    wp (persistSlot io volume slot) (fun _ m' => Persisted m m' volume [slot]) (fun _ _ => False) m := by
  unfold persistSlot
  split
  next failed =>
    refine Persisted.refl_of_none rfl rfl fun member serves => ?_
    rw [serves.working] at failed
    cases failed
  next working =>
    cases held : volume.members slot with
    | none =>
      refine Persisted.refl_of_none rfl rfl fun member serves => ?_
      rw [serves.member] at held
      cases held
    | some member =>
      have serves : volume.Serves slot member := ⟨bound, by simpa using working, held⟩
      dsimp only
      rw [wp_bind, wp_get]
      split
      next zero =>
        refine Persisted.refl_of_none rfl rfl fun other serves' => ?_
        obtain rfl := Option.mem_unique held serves'.member
        exact zero
      next sectors =>
        rw [wp_bind]
        have fits : (m.disks member).sectors - 1 + 1 ≤ (m.disks member).sectors := by omega
        apply memberWrite_wp
        · intro outside
          exact absurd fits (not_le.mpr outside)
        · intro _ _
          refine ⟨rfl, fun other => store_sectors m.tick member other _ _ _, ?_, ?_, ?_⟩
          · intro other _ below
            by_cases same : other = member
            · subst same
              rw [store_data, if_neg]
              · rfl
              unfold usable at below
              omega
            · rw [store_other same]
              rfl
          · intro _ mem other serves' _
            obtain rfl := mem_singleton.mp mem
            obtain rfl := Option.mem_unique held serves'.member
            refine (header_store_last (m := m.tick) sectors _).trans ?_
            exact decode_encode encodable.few bound encodable.events
          · intro other free
            have ne : other ≠ member := by
              rintro rfl
              exact free slot (mem_singleton_self slot) serves
            unfold header
            rw [store_other ne]
            rfl
        · intro _ _ answer
          rw [lands] at answer
          cases answer

omit [DecidableEq D] in
theorem Persisted.cons {m₁ : Machine D} (encodable : Encodable volume)
    {rest : List Nat} (head : Persisted m m₁ volume [slot])
    (tail : Persisted m₁ m' volume rest) : Persisted m m' volume (slot :: rest) := by
  refine ⟨tail.volumes.trans head.volumes, fun member => ?_, fun member lba below => ?_, ?_, ?_⟩
  · rw [tail.sectors, head.sectors]
  · have usable : m₁.usable member = m.usable member := by
      rw [usable, head.sectors, usable]
    rw [tail.data member lba (usable ▸ below), head.data member lba below]
  · intro slot' mem member serves sectors
    have sectors₁ : (m₁.disks member).sectors ≠ 0 := by rwa [head.sectors]
    by_cases later : slot' ∈ rest
    · exact tail.fresh slot' later member serves sectors₁
    obtain rfl : slot' = slot := (mem_cons.mp mem).resolve_right later
    rw [tail.other member fun slot₁ mem₁ serves₁ => ?_]
    · exact head.fresh slot' (mem_singleton_self slot') member serves sectors
    · exact later (encodable.distinct member slot₁ slot' serves₁ serves ▸ mem₁)
  · intro member free
    rw [tail.other member fun slot₁ mem₁ => free slot₁ (mem_cons_of_mem slot mem₁),
      head.other member fun slot₁ mem₁ => ?_]
    rw [mem_singleton.mp mem₁]
    exact free slot mem_cons_self

omit [DecidableEq D] in
theorem Lands.of_sectors (lands : Lands io m)
    (same : ∀ member, (m'.disks member).sectors = (m.disks member).sectors) : Lands io m' := by
  intro turn member
  rw [same]
  exact lands turn member

theorem persistSlots_wp (encodable : Encodable volume) {slots : List Nat}
    (bound : ∀ slot ∈ slots, slot < volume.count) (lands : Lands io m) :
    wp (forEach slots (persistSlot io volume)) (fun _ m' => Persisted m m' volume slots)
      (fun _ _ => False) m := by
  induction slots generalizing m with
  | nil => exact ⟨rfl, fun _ => rfl, fun _ _ _ => rfl, fun _ mem => (by cases mem), fun _ _ => rfl⟩
  | cons slot _ ih =>
    rw [wp_forEach_cons]
    refine wp_of_ok (persistSlot_wp encodable (bound slot mem_cons_self) lands) ?_
    intro _ m₁ head
    refine wp_of_ok (ih (fun slot' mem => bound slot' (mem_cons_of_mem slot mem))
      (lands.of_sectors head.sectors)) ?_
    intro _ m' tail
    exact head.cons encodable tail

theorem persist_wp {index : Nat}
    (found : m.volume index = some volume) (encodable : Encodable volume) (lands : Lands io m) :
    wp (persist io index) (fun _ m' => Persisted m m' volume (range volume.count))
      (fun _ _ => False) m := by
  unfold persist
  rw [wp_bind, wp_get, found]
  exact persistSlots_wp encodable (fun _ mem => mem_range.mp mem) lands

end AerOS.Proof.Raid
