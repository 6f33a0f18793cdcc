import AerOS.Spec.Records

namespace AerOS.Proof.Records
open AerOS.Records Lib Lib.Action Record
open Multiset hiding bind range

variable {start stop : Nat} {p r : Record} {span : Span}

abbrev held (records : Table) : Multiset Record := Slots.bag Record.used records

def Apart (r q : Record) : Prop :=
  r.file = q.file → (r.owner = q.owner ∨ r.write = true ∨ q.write = true) →
    r.stop ≤ q.start ∨ q.stop ≤ r.start

instance : Std.Symm Apart where
  symm r q h file shared := by
    have := h file.symm (by tauto)
    omega

structure WellFormed (m : Multiset Record) : Prop where
  nonempty : ∀ r ∈ m, r.start < r.stop
  apart : m.Pairwise Apart

theorem WellFormed.zero : WellFormed 0 := ⟨by simp, pairwise_zero _⟩

theorem wellFormed_cons {m : Multiset Record} :
    WellFormed (r ::ₘ m) ↔ r.start < r.stop ∧ (∀ q ∈ m, Apart r q) ∧ WellFormed m := by
  constructor
  · intro h
    obtain ⟨apart, rest⟩ := Slots.pairwise_cons.mp h.apart
    exact ⟨h.nonempty r (by simp), apart, fun q hq => h.nonempty q (by simp [hq]), rest⟩
  rintro ⟨nonempty, apart, rest⟩
  refine ⟨?_, Slots.pairwise_cons.mpr ⟨apart, rest.apart⟩⟩
  intro q hq
  rcases mem_cons.mp hq with rfl | hq
  · exact nonempty
  · exact rest.nonempty q hq

def target (span : Span) (r : Record) : Bool :=
  r.holdsFor span.file span.owner && r.meets span.start span.stop

theorem target_iff : target span r = true ↔ r.used = true ∧ r.file = span.file ∧ r.owner = span.owner ∧
      span.start < r.stop ∧ r.start < span.stop := by
  simp [target, holdsFor, meets, and_assoc]

def cut (span : Span) (r : Record) : Multiset Record :=
  if target span r then Multiset.ofList (r.outside span.start span.stop) else {r}

theorem cut_cases (hp : p ∈ cut span r) :
    target span r = true ∧ p ∈ r.outside span.start span.stop ∨ ¬ target span r = true ∧ p = r := by
  by_cases hits : target span r = true
  · rw [cut, if_pos hits] at hp
    exact .inl ⟨hits, hp⟩
  rw [cut, if_neg hits, mem_singleton] at hp
  exact .inr ⟨hits, hp⟩

theorem targets_apart {q : Record} {rest : Multiset Record} (wf : WellFormed (r ::ₘ rest)) (hits : target span r = true)
    (hq : q ∈ rest) (hitsQ : target span q = true) : r.stop ≤ q.start ∨ q.stop ≤ r.start := by
  obtain ⟨-, file, owner, -⟩ := target_iff.mp hits
  obtain ⟨-, fileQ, ownerQ, -⟩ := target_iff.mp hitsQ
  exact (wellFormed_cons.mp wf).2.1 q hq (file.trans fileQ.symm) (.inl (owner.trans ownerQ.symm))

theorem mem_outside : p ∈ r.outside start stop ↔ (r.start < start ∧ p = { r with stop := start }) ∨
        (stop < r.stop ∧ p = { r with start := stop }) := by
  unfold outside
  split_ifs <;> simp_all

theorem outside_not_target (hp : p ∈ r.outside span.start span.stop) : target span p = false := by
  rw [← Bool.not_eq_true, target_iff]
  rintro ⟨-, -, -, lt, gt⟩
  rcases mem_outside.mp hp with ⟨-, rfl⟩ | ⟨-, rfl⟩
  · exact Nat.lt_irrefl _ lt
  · exact Nat.lt_irrefl _ gt

theorem place_wp (used : r.used = true) (records : Table) :
    wp (place r) (fun _ after => held after = r ::ₘ held records ∧
        ∀ slot : Fin recordCount, after.get slot = r ∨ after.get slot = records.get slot)
      (fun code after => code = 37 ∧ after = records ∧ (held records).card = recordCount) records := by
  have entry : ∀ (table : Table) (slot : Fin recordCount), table.get slot = table[slot] := fun _ _ => rfl
  unfold place
  simp only [wp_bind, wp_get]
  cases free : Slots.freeSlot Record.used records with
  | none =>
    refine ⟨rfl, rfl, le_antisymm (Slots.card_bag_le _ _) ?_⟩
    by_contra room
    have := (Slots.freeSlot_isSome_iff Record.used).mpr (Nat.lt_of_not_le room)
    rw [free] at this
    exact absurd this (by simp)
  | some slot =>
    refine ⟨Slots.bag_fill _ (Slots.freeSlot_some _ free) used, fun other => ?_⟩
    by_cases eq : slot = other
    · subst eq
      exact .inl (by simp [entry])
    · exact .inr (by simp [entry, Fin.val_ne_of_ne eq])

theorem placeAll_wp {pieces : List Record} (used : ∀ p ∈ pieces, p.used = true) (records : Table) :
    wp (forEach pieces place) (fun _ after => held after = Multiset.ofList pieces + held records ∧
        ∀ slot : Fin recordCount, after.get slot ∈ pieces ∨ after.get slot = records.get slot)
      (fun code after => code = 37 ∧ (held after).card = recordCount ∧
        ∃ done rest, pieces = done ++ rest ∧ rest ≠ [] ∧
          held after = Multiset.ofList done + held records) records := by
  induction pieces generalizing records with
  | nil => simp
  | cons p ps ih =>
    rw [wp_forEach_cons]
    refine wp_mono (place_wp (used p (by simp)) records) ?_ ?_
    · rintro - middle ⟨bag, slots⟩
      refine wp_mono (ih (fun q hq => used q (by simp [hq])) middle) ?_ ?_
      · rintro - after ⟨bag', slots'⟩
        constructor
        · rw [bag', bag, ← cons_coe, add_cons, cons_add]
        intro slot
        rcases slots' slot with mem | eq
        · exact .inl (List.mem_cons_of_mem _ mem)
        rcases slots slot with here | same
        · exact .inl (by simp [eq, here])
        · exact .inr (eq.trans same)
      · rintro code after ⟨hc, full, done, rest, rfl, ne, bag'⟩
        refine ⟨hc, full, p :: done, rest, rfl, ne, ?_⟩
        rw [bag', bag, ← cons_coe, add_cons, cons_add]
    · rintro code after ⟨hc, rfl, full⟩
      exact ⟨hc, full, [], p :: ps, rfl, by simp, by simp⟩

def Spilled (span : Span) (before after : Table) : Prop :=
  ∃ r rest, held before = r ::ₘ rest ∧ target span r = true ∧ r.start < span.start ∧
    span.stop < r.stop ∧ (held before).card = recordCount ∧
    held after = { r with stop := span.start } ::ₘ rest

theorem carveAt_wp (span : Span) (index : Fin recordCount) (records : Table) :
    wp (carveAt span.file span.owner span.start span.stop index) (fun _ after =>
        (target span (records.get index) = false ∧ after = records) ∨
        (target span (records.get index) = true ∧ (∃ rest, held records = records.get index ::ₘ rest ∧
            held after = Multiset.ofList ((records.get index).outside span.start span.stop) + rest) ∧
          ∀ slot : Fin recordCount, target span (after.get slot) = true →
            slot ≠ index ∧ target span (records.get slot) = true))
      (fun code after => code = 37 ∧ Spilled span records after) records := by
  have entry : ∀ (table : Table) (slot : Fin recordCount), table.get slot = table[slot] := fun _ _ => rfl
  unfold carveAt
  simp only [wp_bind, wp_get, entry]
  generalize hr : records[index] = r
  by_cases hits : target span r = true
  · have used : r.used = true := (target_iff.mp hits).1
    obtain ⟨hfor, hmeets⟩ : r.holdsFor span.file span.owner = true ∧
        r.meets span.start span.stop = true := by simpa [target] using hits
    simp only [hfor, hmeets, Bool.not_true, Bool.false_eq_true, ↓reduceIte, wp_bind, wp_modify]
    have bag : held records = r ::ₘ held (records.set index Record.empty) := by
      rw [← hr]
      exact Slots.bag_clear _ (by rw [hr]; exact used) rfl
    have parts : ∀ p ∈ r.outside span.start span.stop, p.used = true := fun p hp => by
      rcases mem_outside.mp hp with ⟨-, rfl⟩ | ⟨-, rfl⟩ <;> exact used
    refine wp_mono (placeAll_wp parts _) ?_ ?_
    · rintro - after ⟨bag', slots⟩
      refine .inr ⟨hits, ⟨_, bag, bag'⟩, fun slot hslot => ?_⟩
      rcases slots slot with mem | same
      · rw [entry] at mem
        rw [outside_not_target mem] at hslot
        exact absurd hslot Bool.false_ne_true
      rw [← entry, same, entry] at hslot
      by_cases eq : slot = index
      · subst eq
        simp [target, Record.holdsFor, Record.empty] at hslot
      simp only [Fin.getElem_fin, Vector.getElem_set, Fin.val_ne_of_ne (Ne.symm eq), ↓reduceIte] at hslot
      exact ⟨eq, hslot⟩
    rintro code after ⟨hc, _, done, rest, split, ne, bag'⟩
    have count := congrArg Multiset.card bag
    have bound : (held records).card ≤ recordCount := Slots.card_bag_le Record.used records
    have total := congrArg Multiset.card bag'
    simp only [card_cons, card_add, coe_card] at count total
    -- One part fitted into the slot just emptied, so the part without a slot is the second.
    refine ⟨hc, r, _, bag, hits, ?_⟩
    unfold Record.outside at split
    split_ifs at split with hleft hright hright
    · cases done with
      | nil => simp at total; omega
      | cons p done =>
        cases done with
        | nil =>
          simp only [List.cons_append, List.nil_append, List.cons.injEq] at split
          refine ⟨hleft, hright, ?_, ?_⟩
          · simp at total; omega
          rw [bag', ← split.1]
          rfl
        | cons q done =>
          simp only [List.cons_append, List.nil_append, List.cons.injEq] at split
          have := congrArg List.length split.2.2
          simp only [List.length_nil, List.length_append] at this
          exact absurd (List.length_eq_zero_iff.mp (by omega)) ne
    all_goals
      have := congrArg List.length split
      have pos := List.length_pos_iff.mpr ne
      simp only [List.append_nil, List.nil_append, List.length_nil, List.length_cons,
        List.length_append] at this
      omega
  · have no : target span r = false := by simpa using hits
    have skip : r.holdsFor span.file span.owner = false ∨ r.meets span.start span.stop = false := by
      simpa only [target, Bool.and_eq_false_iff] using no
    rcases skip with h | h
    · simp [h, no]
    · by_cases hfor : r.holdsFor span.file span.owner = true <;> simp [hfor, h, no]

theorem Apart.of_outside {q : Record} (h : Apart r q)
    (hp : p ∈ r.outside start stop) (lower : start < r.stop) (upper : r.start < stop) : Apart p q := by
  intro file shared
  rcases mem_outside.mp hp with ⟨-, rfl⟩ | ⟨-, rfl⟩
  all_goals
    have := h file shared
    simp only
    omega

theorem wellFormed_outside {rest : Multiset Record}
    (proper : span.start < span.stop) (hits : target span r = true) (wf : WellFormed (r ::ₘ rest)) :
    WellFormed (Multiset.ofList (r.outside span.start span.stop) + rest) := by
  obtain ⟨-, -, -, lower, upper⟩ := target_iff.mp hits
  obtain ⟨-, apart, wfRest⟩ := wellFormed_cons.mp wf
  have pieces : ∀ p ∈ r.outside span.start span.stop, p.start < p.stop ∧ ∀ q ∈ rest, Apart p q := by
    intro p hp
    refine ⟨?_, fun q hq => (apart q hq).of_outside hp lower upper⟩
    rcases mem_outside.mp hp with ⟨lt, rfl⟩ | ⟨lt, rfl⟩ <;> exact lt
  have between : ∀ p q, r.outside span.start span.stop = [p, q] → Apart p q := by
    intro p q eq
    unfold outside at eq
    split_ifs at eq
    · obtain ⟨rfl, rfl⟩ := eq
      exact fun _ _ => .inl (proper.le)
    all_goals exact absurd (congrArg List.length eq) (by simp)
  have short : (r.outside span.start span.stop).length ≤ 2 := by
    unfold outside
    split_ifs <;> simp
  generalize r.outside span.start span.stop = parts at pieces between short
  match parts, short with
  | [], _ => simpa using wfRest
  | [p], _ =>
    exact wellFormed_cons.mpr ⟨(pieces p (by simp)).1, (pieces p (by simp)).2, wfRest⟩
  | [p, q], _ =>
    rw [← cons_coe, ← cons_coe, coe_nil, cons_add, cons_add, zero_add]
    refine wellFormed_cons.mpr ⟨(pieces p (by simp)).1, ?_, wellFormed_cons.mpr
      ⟨(pieces q (by simp)).1, (pieces q (by simp)).2, wfRest⟩⟩
    intro x hx
    rcases mem_cons.mp hx with rfl | hx
    · exact between p x rfl
    · exact (pieces p (by simp)).2 x hx

theorem bind_cut_of_outside {m : Multiset Record}
    (h : ∀ r ∈ m, target span r = false) : m.bind (cut span) = m := by
  calc m.bind (cut span) = m.bind fun r => {r} := bind_congr fun r hr => by simp [cut, h r hr]
    _ = m := by rw [bind_singleton m fun r => r, map_id']

theorem carveLoop_wp (span : Span) (proper : span.start < span.stop)
    (indices : List (Fin recordCount)) (records : Table) (wf : WellFormed (held records))
    (todo : ∀ slot : Fin recordCount, target span records[slot] = true → slot ∈ indices) :
    wp (forEach indices (carveAt span.file span.owner span.start span.stop))
      (fun _ after => held after = (held records).bind (cut span))
      (fun code after => code = 37 ∧ Spilled span records after) records := by
  induction indices generalizing records with
  | nil =>
    refine (bind_cut_of_outside fun r hr => ?_).symm
    obtain ⟨-, slot, rfl⟩ := (Slots.mem_bag used).mp hr
    by_contra hits
    simpa using todo slot (by simpa using hits)
  | cons index indices ih =>
    rw [wp_forEach_cons]
    refine wp_mono (carveAt_wp span index records) ?_ fun _ _ h => h
    rintro - middle (⟨miss, rfl⟩ | ⟨hits, ⟨rest, before, after⟩, slots⟩)
    · refine ih middle wf fun slot hslot => ?_
      rcases List.mem_cons.mp (todo slot hslot) with rfl | mem
      · exact absurd (miss.symm.trans hslot) Bool.false_ne_true
      · exact mem
    have wfMiddle : WellFormed (held middle) := by
      rw [after]
      exact wellFormed_outside proper hits (before ▸ wf)
    refine wp_mono (ih middle wfMiddle fun slot hslot => ?_) ?_ ?_
    · obtain ⟨ne, old⟩ := slots slot hslot
      exact (List.mem_cons.mp (todo slot old)).resolve_left ne
    · rintro - final bag
      rw [bag, after, before, add_bind, cons_bind,
        bind_cut_of_outside fun p hp => outside_not_target (mem_coe.mp hp), cut,
        if_pos hits]
    rintro code final ⟨-, q, _, bag, hitsQ, _, _, -⟩
    -- A record around the whole range would meet the record that was just cut.
    exfalso
    have member : q ∈ held middle := by simp [bag]
    rw [after, mem_add] at member
    rcases member with piece | old
    · rw [outside_not_target (mem_coe.mp piece)] at hitsQ
      exact Bool.false_ne_true hitsQ
    obtain ⟨-, -, -, _, _⟩ := target_iff.mp hits
    have := targets_apart (before ▸ wf) hits old hitsQ
    omega

variable {write : Bool} {file owner : Nat} {after before records : Table}
variable {m : Multiset Record} {pid : Nat} {kind : LockKind}

def Holds (m : Multiset Record) (file owner byte : Nat) (write : Bool) : Prop :=
  ∃ r ∈ m, r.file = file ∧ r.owner = owner ∧ r.start ≤ byte ∧ byte < r.stop ∧ r.write = write

theorem lockOf_eq_some_iff (wf : WellFormed (held records)) {byte : Nat} :
    lockOf records file owner byte = some write ↔ Holds (held records) file owner byte write := by
  unfold lockOf
  simp only [Option.map_eq_some_iff]
  constructor
  · rintro ⟨r, found, rfl⟩
    have mem := List.mem_of_find?_eq_some found
    have hr := List.find?_some found
    simp only [Record.holdsFor, Bool.and_eq_true, beq_iff_eq, decide_eq_true_eq] at hr
    obtain ⟨⟨⟨used, rfl⟩, rfl⟩, lower, upper⟩ := hr
    exact ⟨r, by simp [Slots.bag, mem, used], rfl, rfl, lower, upper, rfl⟩
  rintro ⟨r, mem, rfl, rfl, lower, upper, rfl⟩
  obtain ⟨used, slot, eq⟩ := (Slots.mem_bag Record.used).mp mem
  cases found : records.toList.find? fun record =>
      record.holdsFor r.file r.owner && decide (record.start ≤ byte ∧ byte < record.stop) with
  | none =>
    have := List.find?_eq_none.mp found r (by rw [← eq]; simp)
    simp [Record.holdsFor, used, lower, upper] at this
  | some q =>
    refine ⟨q, rfl, ?_⟩
    have hq := List.find?_some found
    simp only [Record.holdsFor, Bool.and_eq_true, beq_iff_eq, decide_eq_true_eq] at hq
    obtain ⟨⟨⟨usedQ, file⟩, owner⟩, _, _⟩ := hq
    obtain ⟨other, bound, eqQ⟩ := Vector.mem_iff_getElem.mp
      (Vector.mem_toList_iff.mp (List.mem_of_find?_eq_some found))
    -- Two records of one owner that share a byte sit in the same slot.
    by_cases same : slot = ⟨other, bound⟩
    · subst same
      rw [← eqQ, ← eq]
      rfl
    have apart := (Slots.pairwise_bag Record.used).mp wf.apart slot ⟨other, bound⟩ same
      (by rw [eq]; exact used) (by simpa [eqQ] using usedQ)
    rw [eq, show records[(⟨other, bound⟩ : Fin recordCount)] = q from eqQ] at apart
    have := apart file.symm (.inl owner.symm)
    omega

theorem lockOf_eq_none_iff (wf : WellFormed (held records)) {byte : Nat} :
    lockOf records file owner byte = none ↔ ∀ write, ¬ Holds (held records) file owner byte write := by
  rw [Option.eq_none_iff_forall_ne_some]
  exact forall_congr' fun write => (lockOf_eq_some_iff wf).not

theorem lockOf_congr (wf : WellFormed (held before)) (wf' : WellFormed (held after)) {byte : Nat}
    (same : ∀ write, Holds (held after) file owner byte write ↔ Holds (held before) file owner byte write) :
    lockOf after file owner byte = lockOf before file owner byte := by
  apply Option.ext
  intro write
  rw [lockOf_eq_some_iff wf', lockOf_eq_some_iff wf, same]

def Covers (span : Span) (file owner byte : Nat) : Prop :=
  file = span.file ∧ owner = span.owner ∧ span.start ≤ byte ∧ byte < span.stop

instance (span : Span) (file owner byte : Nat) : Decidable (Covers span file owner byte) := by
  unfold Covers
  infer_instance

theorem holds_cut (used : ∀ r ∈ m, r.used = true) {byte : Nat} :
    Holds (m.bind (cut span)) file owner byte write ↔
      Holds m file owner byte write ∧ ¬ Covers span file owner byte := by
  constructor
  · rintro ⟨p, mem, rfl, rfl, lower, upper, rfl⟩
    obtain ⟨r, hr, hp⟩ := mem_bind.mp mem
    rcases cut_cases hp with ⟨hits, hp⟩ | ⟨hits, rfl⟩
    · obtain ⟨-, -, -, _, _⟩ := target_iff.mp hits
      rcases mem_outside.mp hp with ⟨lt, rfl⟩ | ⟨lt, rfl⟩
      · simp only at upper
        refine ⟨⟨r, hr, rfl, rfl, lower, by omega, rfl⟩, ?_⟩
        rintro ⟨-, -, inside, -⟩
        omega
      simp only at lower
      refine ⟨⟨r, hr, rfl, rfl, by omega, upper, rfl⟩, ?_⟩
      rintro ⟨-, -, -, inside⟩
      omega
    · refine ⟨⟨p, hr, rfl, rfl, lower, upper, rfl⟩, ?_⟩
      rintro ⟨file, owner, inside, below⟩
      apply hits
      exact target_iff.mpr ⟨used p hr, file, owner, by omega, by omega⟩
  · rintro ⟨⟨r, hr, rfl, rfl, lower, upper, rfl⟩, outside⟩
    by_cases hits : target span r = true
    · obtain ⟨-, file, owner, -⟩ := target_iff.mp hits
      have piece (p : Record) (hp : p ∈ r.outside span.start span.stop) : p ∈ m.bind (cut span) :=
        mem_bind.mpr ⟨r, hr, by rwa [cut, if_pos hits, mem_coe]⟩
      by_cases left : byte < span.start
      · exact ⟨{ r with stop := span.start }, piece _ (mem_outside.mpr (.inl ⟨by omega, rfl⟩)),
          rfl, rfl, lower, left, rfl⟩
      have right : span.stop ≤ byte := by
        by_contra below
        exact outside ⟨file, owner, by omega, by omega⟩
      exact ⟨{ r with start := span.stop }, piece _ (mem_outside.mpr (.inr ⟨by omega, rfl⟩)),
        rfl, rfl, right, upper, rfl⟩
    · exact ⟨r, mem_bind.mpr ⟨r, hr, by rw [cut, if_neg hits]; simp⟩, rfl, rfl, lower, upper, rfl⟩

theorem held_used (hr : r ∈ held records) : r.used = true := ((Slots.mem_bag used).mp hr).1

theorem overlapped_eq (records : Table) (span : Span) : Multiset.ofList (overlapped records span) =
      (held records).filter fun r => target span r = true := by
  rw [held, Slots.bag, filter_coe, List.filter_filter, overlapped]
  congr 1
  apply List.filter_congr
  intro r _
  by_cases used : r.used = true
  · rw [used, Bool.and_true, Bool.decide_eq_true]
    rfl
  · simp [target, holdsFor, used]

theorem card_cut (span : Span) (m : Multiset Record) :
    (m.bind (cut span)).card + (m.filter fun r => target span r = true).card =
      m.card + ((m.filter fun r => target span r = true).map fun r =>
        (r.outside span.start span.stop).length).sum := by
  induction m using Multiset.induction with
  | empty => simp
  | cons r m _ =>
    rw [cons_bind, card_add, card_cons]
    by_cases hits : target span r = true
    · rw [filter_cons_of_pos (p := fun r => target span r = true) _ hits, card_cons, map_cons,
        sum_cons, cut, if_pos hits, coe_card]
      omega
    · rw [filter_cons_of_neg (p := fun r => target span r = true) _ hits, cut, if_neg hits, card_singleton]
      omega

theorem card_held_cut (records : Table) (span : Span) :
    ((held records).bind (cut span)).card + (overlapped records span).length + freeSlots records =
      recordCount + leftOver records span := by
  have cutting := card_cut span (held records)
  rw [← overlapped_eq, coe_card, map_coe, sum_coe] at cutting
  have slots : (held records).card + freeSlots records = recordCount := Slots.card_bag_add_free used records
  unfold leftOver
  omega

def Lost (span : Span) (before after : Table) : Prop :=
  Spilled span before after ∨ held after = (held before).bind (cut span) ∧ (held after).card = recordCount

def newRecord (span : Span) (pid : Nat) (kind : LockKind) : Record :=
  ⟨true, span.file, span.owner, pid % 2 ^ 32, span.start, span.stop, kind = .write⟩

theorem grant_wp (span : Span) (pid : Nat) (kind : LockKind) (proper : span.start < span.stop)
    (records : Table) (wf : WellFormed (held records)) : wp (grant span pid kind)
      (fun _ after => held after =
        (if kind = .unlock then 0 else {newRecord span pid kind}) + (held records).bind (cut span))
      (fun code after => code = 37 ∧ Lost span records after ∧
        (kind = .unlock → Spilled span records after)) records := by
  unfold grant
  rw [wp_bind]
  refine wp_mono (carveLoop_wp span proper _ records wf fun slot _ => List.mem_finRange slot) ?_ ?_
  · rintro - middle bag
    by_cases unlock : kind = .unlock
    · simp [unlock, bag]
    rw [if_neg unlock, if_neg unlock]
    refine wp_mono (place_wp rfl middle) ?_ ?_
    · rintro - after ⟨bag', -⟩
      rw [bag', bag]
      rfl
    · rintro code after ⟨hc, rfl, full⟩
      exact ⟨hc, .inr ⟨bag, full⟩, fun h => absurd h unlock⟩
  · rintro code after ⟨hc, spilled⟩
    exact ⟨hc, .inl spilled, fun _ => spilled⟩

theorem wellFormed_cut (proper : span.start < span.stop)
    (wf : WellFormed m) : WellFormed (m.bind (cut span)) := by
  have apartPiece {r q p : Record} (h : Apart r q) (hp : p ∈ cut span r) : Apart p q := by
    rcases cut_cases hp with ⟨hits, hp⟩ | ⟨-, rfl⟩
    · obtain ⟨-, -, -, lower, upper⟩ := target_iff.mp hits
      exact h.of_outside hp lower upper
    · exact h
  induction m using Multiset.induction with
  | empty => simpa using WellFormed.zero
  | cons r m ih =>
    obtain ⟨nonempty, apart, wfRest⟩ := wellFormed_cons.mp wf
    rw [cons_bind]
    have across : WellFormed (r ::ₘ m.bind (cut span)) := by
      refine wellFormed_cons.mpr ⟨nonempty, fun p hp => ?_, ih wfRest⟩
      obtain ⟨q, hq, hp⟩ := mem_bind.mp hp
      exact Std.Symm.symm _ _ (apartPiece (Std.Symm.symm _ _ (apart q hq)) hp)
    by_cases hits : target span r = true
    · rw [cut, if_pos hits]
      exact wellFormed_outside proper hits across
    rw [cut, if_neg hits, singleton_add]
    exact across

theorem Spilled.wellFormed (wf : WellFormed (held before))
    (h : Spilled span before after) : WellFormed (held after) := by
  obtain ⟨r, _, bag, hits, left, -, -, bag'⟩ := h
  obtain ⟨-, -, -, lower, upper⟩ := target_iff.mp hits
  rw [bag] at wf
  obtain ⟨-, apart, wfRest⟩ := wellFormed_cons.mp wf
  rw [bag']
  exact wellFormed_cons.mpr ⟨left, fun q hq =>
    (apart q hq).of_outside (mem_outside.mpr (.inl ⟨left, rfl⟩)) lower upper, wfRest⟩

theorem Lost.wellFormed (proper : span.start < span.stop)
    (wf : WellFormed (held before)) (h : Lost span before after) : WellFormed (held after) := by
  rcases h with spilled | ⟨bag, -⟩
  · exact spilled.wellFormed wf
  rw [bag]
  exact wellFormed_cut proper wf

def Clear (records : Table) (span : Span) (kind : LockKind) : Prop :=
  kind = .unlock ∨ conflict records span.file span.owner span.start span.stop (kind = .write) = none

theorem conflicts_iff : r.conflicts file owner start stop write = true ↔ r.used = true ∧ r.file = file ∧
      r.owner ≠ owner ∧ r.start < stop ∧ start < r.stop ∧ (write = true ∨ r.write = true) := by
  simp [conflicts, and_assoc]

theorem wellFormed_new (proper : span.start < span.stop) (wf : WellFormed (held records))
    (clear : Clear records span kind) (lock : kind ≠ .unlock) :
    WellFormed (newRecord span pid kind ::ₘ (held records).bind (cut span)) := by
  refine wellFormed_cons.mpr ⟨proper, fun p hp => ?_, wellFormed_cut proper wf⟩
  obtain ⟨r, hr, hp⟩ := mem_bind.mp hp
  intro file shared
  rcases cut_cases hp with ⟨-, hp⟩ | ⟨hits, rfl⟩
  · rcases mem_outside.mp hp with ⟨-, rfl⟩ | ⟨-, rfl⟩ <;> simp [newRecord]
  by_contra meet
  simp only [newRecord, not_or, not_le] at file shared meet
  rcases clear with unlock | none
  · exact lock unlock
  obtain ⟨used, _, eq⟩ := (Slots.mem_bag used).mp hr
  by_cases own : p.owner = span.owner
  · exact hits (target_iff.mpr ⟨used, file.symm, own, meet.2, meet.1⟩)
  exact List.find?_eq_none.mp none p (by rw [← eq]; simp) (conflicts_iff.mpr
    ⟨used, file.symm, own, meet.1, meet.2, shared.resolve_left (Ne.symm own)⟩)

theorem overlapped_ne_nil : overlapped records span ≠ [] ↔ ∃ r ∈ held records, target span r = true := by
  rw [ne_eq, ← coe_eq_zero, overlapped_eq, filter_eq_nil]
  push Not
  rfl

theorem not_fit_inside {rest : Multiset Record}
    (wf : WellFormed (held before)) (bag : held before = r ::ₘ rest) (hits : target span r = true)
    (left : r.start < span.start) (right : span.stop < r.stop) (full : (held before).card = recordCount) :
    freeSlots before + (overlapped before span).length < leftOver before span := by
  have alone : (held before).filter (fun r => target span r = true) = {r} := by
    rw [bag, filter_cons_of_pos (p := fun r => target span r = true) _ hits, filter_eq_nil.mpr]
    · rfl
    intro q hq hitsQ
    obtain ⟨-, -, -, _, _⟩ := target_iff.mp hitsQ
    have := targets_apart (bag ▸ wf) hits hq hitsQ
    omega
  rw [← overlapped_eq] at alone
  have one := coe_eq_singleton.mp alone
  have none : freeSlots before = 0 := by
    have : (held before).card + freeSlots before = recordCount := Slots.card_bag_add_free used before
    omega
  have two : (r.outside span.start span.stop).length = 2 := by simp [outside, left, right]
  simp [leftOver, one, none, two]

theorem Spilled.not_fit (wf : WellFormed (held before)) (h : Spilled span before after) :
    freeSlots before + (overlapped before span).length < leftOver before span := by
  obtain ⟨r, _, bag, hits, left, right, full, -⟩ := h
  exact not_fit_inside wf bag hits left right full

theorem Lost.byte (proper : span.start < span.stop)
    (wf : WellFormed (held before)) (h : Lost span before after) (hr : r ∈ held before)
    (hits : target span r = true) : Holds (held before) r.file r.owner (max r.start span.start) r.write ∧
      ∀ write, ¬ Holds (held after) r.file r.owner (max r.start span.start) write := by
  obtain ⟨-, file, owner, _, _⟩ := target_iff.mp hits
  have nonempty := wf.nonempty r hr
  refine ⟨⟨r, hr, rfl, rfl, by omega, by omega, rfl⟩, fun write held' => ?_⟩
  rcases h with ⟨q, _, bag, hitsQ, _, _, -, bag'⟩ | ⟨bag', -⟩
  · obtain ⟨-, apart, -⟩ := wellFormed_cons.mp (bag ▸ wf)
    -- The record that was cut surrounds the range, so it is the one that meets it.
    have same : r = q := by
      rw [bag] at hr
      refine (mem_cons.mp hr).resolve_right fun other => ?_
      have := targets_apart (bag ▸ wf) hitsQ other hits
      omega
    subst same
    rw [bag'] at held'
    obtain ⟨p, hp, fileP, ownerP, _, upperP, -⟩ := held'
    rcases mem_cons.mp hp with rfl | other
    · simp only at upperP
      omega
    have := apart p other fileP.symm (.inl ownerP.symm)
    omega
  · rw [bag', holds_cut fun _ => held_used] at held'
    exact held'.2 ⟨file, owner, by omega, by omega⟩

theorem lockRange_proper {first length : Int} (bound : first ≤ i64Max)
    (h : lockRange first length = .ok (start, stop)) : start < stop := by
  unfold lockRange Records.saturatingAdd at h
  unfold i64Max at h bound
  unfold eof at h
  simp only at h
  split_ifs at h <;> simp only [Except.ok.injEq, Prod.mk.injEq] at h <;> omega

theorem spanOf_proper {fd : ProcessFd} {number : Nat} {flock : Flock}
    (h : spanOf fd pid number flock = .ok span) : span.start < span.stop := by
  unfold spanOf at h
  cases file : fd.file with
  | none => simp [file, bind, Except.bind] at h
  | some _ =>
    cases hbase : base fd flock.whence with
    | error code => simp [file, hbase, bind, Except.bind] at h
    | ok from' =>
      cases range : lockRange (Records.saturatingAdd from' flock.offset) flock.length with
      | error code => simp [file, hbase, range, bind, Except.bind] at h
      | ok _ =>
        simp only [file, hbase, range, bind, Except.bind, pure, Except.pure, Except.ok.injEq] at h
        subst h
        exact lockRange_proper (by unfold Records.saturatingAdd i64Max; omega) range

inductive Outcome (span : Span) (kind : LockKind) (before : Table) : Reply → Table → Prop
  | refused (reply : Reply) (failed : reply ≠ .zero)
      (blocked : ¬ Clear before span kind) : Outcome span kind before reply before
  | granted (after : Table) (pid : Nat) (clear : Clear before span kind)
      (bag : held after = (if kind = .unlock then 0 else {newRecord span pid kind}) +
        (held before).bind (cut span)) : Outcome span kind before .zero after
  | lost (code : Nat) (after : Table) (clear : Clear before span kind)
      (lost : Lost span before after) (spilled : kind = .unlock → Spilled span before after) :
      Outcome span kind before (.errno code) after

theorem setLock_outcome (wait interrupted : Bool) (pid : Nat) (kind : LockKind)
    (proper : span.start < span.stop) (wf : WellFormed (held records)) :
    Outcome span kind records (setLock wait interrupted pid span kind records).1
      (setLock wait interrupted pid span kind records).2 := by
  unfold setLock
  by_cases blocked : kind ≠ .unlock ∧
      (conflict records span.file span.owner span.start span.stop (kind = .write)).isSome
  · have notClear : ¬ Clear records span kind := by
      rintro (unlock | none)
      · exact blocked.1 unlock
      rw [none] at blocked
      exact absurd blocked.2 (by simp)
    split_ifs
    all_goals exact .refused _ (by simp) notClear
  · rw [if_neg blocked]
    have clear : Clear records span kind := by
      by_cases unlock : kind = .unlock
      · exact .inl unlock
      · exact .inr (Option.not_isSome_iff_eq_none.mp fun some => blocked ⟨unlock, some⟩)
    obtain ⟨_, _, run, done⟩ | ⟨_, _, run, done⟩ := run_of_wp (grant_wp span pid kind proper records wf)
    · rw [run]
      exact .granted _ pid clear done
    rw [run]
    exact .lost _ _ clear done.2.1 done.2.2

theorem Outcome.wellFormed {reply : Reply} (proper : span.start < span.stop) (wf : WellFormed (held before))
    (h : Outcome span kind before reply after) : WellFormed (held after) := by
  cases h with
  | refused => exact wf
  | granted _ _ clear bag =>
    rw [bag]
    split_ifs with unlock
    · simpa using wellFormed_cut proper wf
    rw [singleton_add]
    exact wellFormed_new proper wf clear unlock
  | lost _ _ clear lost => exact lost.wellFormed proper wf

end AerOS.Proof.Records
