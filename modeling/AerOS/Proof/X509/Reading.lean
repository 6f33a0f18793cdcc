import AerOS.Spec.Der

namespace AerOS.Proof.X509
open Der Option

variable {data : Bytes} {start length header : Nat}

@[simp] theorem length_bigEndian (count value : Nat) : (bigEndian count value).length = count := by
  induction count with
  | zero => rfl
  | succ count ih => rw [bigEndian, List.length_cons, ih]

theorem cons_prefix_drop {byte : UInt8} {bytes : Bytes} :
    byte :: bytes <+: data.drop start ↔ data[start]? = some byte ∧ bytes <+: data.drop (start + 1) := by
  by_cases inside : start < data.length
  · rw [List.drop_eq_getElem_cons inside, List.cons_prefix_cons, List.getElem?_eq_getElem inside, some.injEq]
    exact and_congr_left' eq_comm
  rw [List.drop_eq_nil_of_le (not_lt.mp inside), List.getElem?_eq_none (not_lt.mp inside)]
  simp

theorem append_prefix_drop {first second : Bytes} : first ++ second <+: data.drop start ↔
    first <+: data.drop start ∧ second <+: data.drop (start + first.length) := by
  induction first generalizing start with
  | nil => simp
  | cons _ _ ih =>
    rw [List.cons_append, cons_prefix_drop, ih, cons_prefix_drop, and_assoc, List.length_cons, Nat.add_assoc, Nat.add_comm 1]

theorem longLength_iff {count n : Nat} :
    longLength data start count n = some length ↔ bigEndian count length <+: data.drop start ∧ n = length / 256 ^ count := by
  induction count generalizing start n with
  | zero => simp [longLength, bigEndian]
  | succ count ih =>
    rw [bigEndian, cons_prefix_drop, longLength, bind_eq_bind, bind_eq_some_iff, Nat.pow_succ,
      ← Nat.div_div_eq_div_mul]
    generalize length / 256 ^ count = high at ih ⊢
    have joined : ∀ byte : UInt8, n <<< 8 ||| byte.toNat = n * 256 + byte.toNat := fun byte => by
      rw [← Nat.shiftLeft_add_eq_or_of_lt byte.toNat_lt, Nat.shiftLeft_eq]
    constructor
    · rintro ⟨byte, here, rest⟩
      obtain ⟨behind, rfl⟩ := ih.mp rest
      have low := byte.toNat_lt
      have same : UInt8.ofNat (n <<< 8 ||| byte.toNat) = byte := by
        rw [← UInt8.toNat_inj, UInt8.toNat_ofNat', joined]
        omega
      refine ⟨⟨here.trans (congrArg some same.symm), behind⟩, ?_⟩
      rw [joined]
      omega
    · rintro ⟨⟨here, behind⟩, rfl⟩
      refine ⟨_, here, ih.mpr ⟨behind, ?_⟩⟩
      rw [joined, UInt8.toNat_ofNat']
      omega

theorem count_iff {count : Nat} (large : 0x80 ≤ length) :
    (count ≠ 0 ∧ length / 256 ^ count = 0 ∧ ¬ (1 < count ∧ length < 1 <<< (8 * (count - 1)))) ↔
      count = Nat.log 256 length + 1 := by
  cases count with
  | zero => simp
  | succ below =>
    have power : 1 <<< (8 * below) = 256 ^ below := by rw [Nat.one_shiftLeft, Nat.pow_mul]
    rw [Nat.add_right_cancel_iff, @eq_comm _ below, Nat.log_eq_iff (.inr ⟨by decide, by omega⟩), Nat.add_sub_cancel, power,
      Nat.div_eq_zero_iff_lt (Nat.pow_pos (by decide))]
    cases below with
    | zero => omega
    | succ below => omega

theorem encodeLength_long (large : ¬ length < 0x80) : encodeLength length =
    UInt8.ofNat (0x80 + (Nat.log 256 length + 1)) :: bigEndian (Nat.log 256 length + 1) length :=
  if_neg large

theorem length_encodeLength_pos (length : Nat) : 0 < (encodeLength length).length := by
  by_cases small : length < 0x80
  · simp [encodeLength, small]
  · simp [encodeLength_long small]

theorem lengthAt_iff : lengthAt data start = some (length, header) ↔
    length < 2 ^ 32 ∧ header = 1 + (encodeLength length).length ∧ encodeLength length <+: data.drop (start + 1) := by
  simp only [lengthAt, bind_eq_bind, bind_eq_some_iff]
  constructor
  · rintro ⟨first, here, h⟩
    split at h
    · next small =>
      cases h
      have low : first.toNat < 0x80 := small
      refine ⟨by omega, ?_, ?_⟩
      · simp [encodeLength, low]
      · simp [encodeLength, low, cons_prefix_drop, here]
    next large =>
      simp only [bind_eq_some_iff] at h
      obtain ⟨_, few, n, long, _, least, h⟩ := h
      cases h
      rw [guard_eq_some', not_or] at few least
      obtain ⟨behind, high⟩ := longLength_iff.mp long
      have counted := (count_iff (not_lt.mp least.1)).mp ⟨few.1, high.symm, least.2⟩
      have low : (first &&& 0x7f).toNat = first.toNat % 128 := by
        exact Nat.and_two_pow_sub_one_eq_mod _ 7
      have same : UInt8.ofNat (0x80 + (first &&& 0x7f).toNat) = first := by
        have := first.toNat_lt
        have : ¬ first.toNat < 0x80 := large
        rw [← UInt8.toNat_inj, UInt8.toNat_ofNat', low]
        omega
      rw [encodeLength_long least.1, ← counted, same]
      refine ⟨?_, by simp; omega, cons_prefix_drop.mpr ⟨here, behind⟩⟩
      have below := (Nat.div_eq_zero_iff_lt (Nat.pow_pos (by decide))).mp high.symm
      exact below.trans_le (Nat.pow_le_pow_right (by decide) (not_lt.mp few.2) : _ ≤ 256 ^ 4)
  · rintro ⟨short, rfl, at_⟩
    by_cases small : length < 0x80
    · rw [encodeLength, if_pos small] at at_ ⊢
      have same : (UInt8.ofNat length).toNat = length := by
        rw [UInt8.toNat_ofNat']
        omega
      refine ⟨_, (cons_prefix_drop.mp at_).1, ?_⟩
      rw [if_pos (UInt8.lt_iff_toNat_lt.mpr (by rw [same]; exact small)), same]
      rfl
    rw [encodeLength_long small] at at_ ⊢
    obtain ⟨here, behind⟩ := cons_prefix_drop.mp at_
    have few : Nat.log 256 length + 1 ≤ 4 := Nat.log_lt_of_lt_pow (by omega) short
    obtain ⟨some, high, least⟩ := (count_iff (not_lt.mp small)).mpr rfl
    generalize Nat.log 256 length + 1 = count at *
    have first : (UInt8.ofNat (0x80 + count)).toNat = 0x80 + count := by
      rw [UInt8.toNat_ofNat']
      omega
    have low : (UInt8.ofNat (0x80 + count) &&& 0x7f).toNat = count := by
      rw [UInt8.toNat_and, first]
      exact (Nat.and_two_pow_sub_one_eq_mod _ 7).trans (by omega)
    refine ⟨_, here, ?_⟩
    rw [if_neg fun less => absurd (UInt8.lt_iff_toNat_lt.mp less) (by rw [first]; simp)]
    simp only [low, longLength_iff.mpr ⟨behind, high.symm⟩, bind_some, bind_eq_some_iff, guard_eq_some']
    exact ⟨(), by omega, (), by omega, by simp; omega⟩

theorem getRange_iff {part : Bytes} {count : Nat} : getRange data start (start + count) = some part ↔
    part.length = count ∧ start + count ≤ data.length ∧ part <+: data.drop start := by
  rw [getRange, ite_none_right_eq_some, Nat.add_sub_cancel_left, List.prefix_iff_eq_take]
  constructor
  · rintro ⟨⟨-, inside⟩, h⟩
    obtain rfl := some.inj h
    have size : ((data.drop start).take count).length = count := by
      simp
      omega
    exact ⟨size, inside, by rw [size]⟩
  · rintro ⟨rfl, inside, taken⟩
    exact ⟨⟨by omega, inside⟩, congrArg some taken.symm⟩

theorem read_iff {reader rest : Reader} {element : Tlv} : reader.read = some (element, rest) ↔
    Encodable element.tag element.value ∧ element.raw = encode element.tag element.value ∧
      element.raw <+: reader.data.drop reader.position ∧
      rest = ⟨reader.data, reader.position + element.raw.length⟩ := by
  simp only [Reader.read, bind_eq_bind, bind_eq_some_iff, guard_eq_some']
  constructor
  · rintro ⟨tag, here, -, plain, ⟨length, _⟩, lengths, value, valueAt, raw, rawAt, h⟩
    obtain ⟨short, rfl, after⟩ := lengthAt_iff.mp lengths
    obtain ⟨rfl, inside, _⟩ := getRange_iff.mp valueAt
    rw [Nat.add_assoc] at rawAt
    obtain ⟨size, -, front⟩ := getRange_iff.mp rawAt
    have whole : encode tag value <+: reader.data.drop reader.position := by
      refine cons_prefix_drop.mpr ⟨here, append_prefix_drop.mpr ⟨after, ?_⟩⟩
      rwa [Nat.add_assoc]
    have same : raw = encode tag value := by
      have long : (encode tag value).length = raw.length := by
        simp [encode]
        omega
      exact (List.prefix_of_prefix_length_le front whole long.ge).eq_of_length long.symm
    cases h
    refine ⟨⟨plain, short⟩, same, front, ?_⟩
    rw [size, Nat.add_assoc]
  rintro ⟨⟨plain, short⟩, same, front, rfl⟩
  have size : element.raw.length = 1 + (encodeLength element.value.length).length + element.value.length := by
    rw [same]
    simp [encode]
    omega
  have inside := front.length_le
  rw [List.length_drop] at inside
  rw [same] at front
  obtain ⟨here, rest⟩ := cons_prefix_drop.mp front
  obtain ⟨lengths, value⟩ := append_prefix_drop.mp rest
  refine ⟨element.tag, here, (), plain, (_, _), lengthAt_iff.mpr ⟨short, rfl, lengths⟩, element.value,
    getRange_iff.mpr ⟨rfl, by omega, by rwa [← Nat.add_assoc]⟩, element.raw, ?_, ?_⟩
  · rw [Nat.add_assoc]
    exact getRange_iff.mpr ⟨size, by omega, same ▸ front⟩
  · rw [size, Nat.add_assoc]
    rfl

theorem reads_concat (elements : List (UInt8 × Bytes)) (plain : ∀ e ∈ elements, Encodable e.1 e.2)
    (h : elements.flatMap (fun e => encode e.1 e.2) <+: data.drop start) : reads elements.length ⟨data, start⟩ =
      some (elements.map .of, ⟨data, start + (elements.flatMap fun e => encode e.1 e.2).length⟩) := by
  induction elements generalizing start with
  | nil => rfl
  | cons element elements ih =>
    rw [List.flatMap_cons] at h ⊢
    obtain ⟨first, others⟩ := append_prefix_drop.mp h
    have here : Reader.read ⟨data, start⟩ = some (.of element, _) :=
      read_iff.mpr ⟨plain element List.mem_cons_self, rfl, first, rfl⟩
    have behind := ih (fun e mem => plain e (List.mem_cons_of_mem _ mem)) others
    rw [List.length_append, ← Nat.add_assoc]
    simp [reads, here, behind, Tlv.of]

theorem expectTlvMut_none {reader : Reader} {tag : UInt8} (h : (reader.expectTlvMut tag).1 = none) :
    (reader.expectTlvMut tag).2 = reader := by
  unfold Reader.expectTlvMut Reader.readMut at *
  cases found : reader.read with
  | none => rfl
  | some _ =>
    obtain ⟨-, -, -, data⟩ := read_iff.mp found
    rw [found] at h
    dsimp only at h ⊢
    split at h
    · cases h
    next other => rw [if_neg other, data]

theorem expectMut_eq (reader : Reader) (tag : UInt8) :
    reader.expectMut tag = ((reader.expectTlvMut tag).1.map Tlv.value, (reader.expectTlvMut tag).2) := by
  unfold Reader.expectMut Reader.expectTlvMut
  split
  · split <;> rfl
  · rfl

/-- Reading accepts exactly the encodings, gives every element back and puts the reader back where it fails. -/
theorem reading_canonical (reader : Reader) :
    (∀ element rest, reader.read = some (element, rest) ↔
      Encodable element.tag element.value ∧ element.raw = encode element.tag element.value ∧
        element.raw <+: reader.data.drop reader.position ∧
        rest = ⟨reader.data, reader.position + element.raw.length⟩) ∧
    (∀ tag value tag' value', Encodable tag value → Encodable tag' value' →
      encode tag value <+: reader.data.drop reader.position → encode tag' value' <+: reader.data.drop reader.position →
      tag = tag' ∧ value = value') ∧
    (∀ elements : List (UInt8 × Bytes), (∀ e ∈ elements, Encodable e.1 e.2) →
      elements.flatMap (fun e => encode e.1 e.2) <+: reader.data.drop reader.position →
      reads elements.length reader = some (elements.map .of,
        ⟨reader.data, reader.position + (elements.flatMap fun e => encode e.1 e.2).length⟩)) ∧
    (∀ tag, (reader.expectTlvMut tag).1 = none → (reader.expectTlvMut tag).2 = reader) ∧
    ∀ tag, (reader.expectMut tag).1 = none → (reader.expectMut tag).2 = reader := by
  refine ⟨fun _ _ => read_iff, ?_, fun elements plain => reads_concat elements plain, fun _ => expectTlvMut_none, ?_⟩
  · intro tag value tag' value' plain plain' here here'
    have first : reader.read = some (.of (tag, value), _) := read_iff.mpr ⟨plain, rfl, here, rfl⟩
    have second : reader.read = some (.of (tag', value'), _) := read_iff.mpr ⟨plain', rfl, here', rfl⟩
    obtain ⟨tags, values, -⟩ : tag = tag' ∧ value = value' ∧ _ := by
      simpa [Tlv.of, and_assoc] using first.symm.trans second
    exact ⟨tags, values⟩
  · intro tag h
    rw [expectMut_eq] at h ⊢
    exact expectTlvMut_none (map_eq_none_iff.mp h)

end AerOS.Proof.X509
