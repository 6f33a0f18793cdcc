import AerOS.Spec.FrameRefs

namespace AerOS.Proof.FrameRefs
open AerOS.FrameRefs Lib Lib.Probing Function Equiv

variable {table table' : Table} {physical : UInt64} {count : UInt32} {index slot hole i j : Slot}

/-- The home of each slot's entry. -/
def homes (table : Table) (i : Slot) : Option Slot :=
  if (table i).1 = 0 then none else some (frameHome (table i).1)

theorem homes_eq_none : homes table i = none ↔ (table i).1 = 0 := by
  simp [homes]

theorem homes_of_ne (full : (table i).1 ≠ 0) : homes table i = some (frameHome (table i).1) := if_neg full

theorem homes_comp (σ : Perm Slot) : homes (table ∘ σ) = homes table ∘ σ := rfl

theorem homes_update (entry : UInt64 × UInt32) : homes (update table i entry) =
    update (homes table) i (if entry.1 = 0 then none else some (frameHome entry.1)) := by
  funext j
  by_cases same : j = i
  · simp [same, homes]
  · simp [homes, update_of_ne same]

structure Sound (table : Table) : Prop where
  once : ∀ i j, (table i).1 = (table j).1 → (table i).1 ≠ 0 → i = j
  reached : Reached (homes table)

/-- What a search that begins at home finds. -/
def Finds (table : Table) (physical : UInt64) : Except (Option Slot) Slot → Prop
  | .ok i => (table i).1 = physical
  | .error (some i) => (table i).1 = 0 ∧ ∀ j, gap (frameHome physical) j < gap (frameHome physical) i →
      (table j).1 ≠ physical ∧ (table j).1 ≠ 0
  | .error none => ∀ j, (table j).1 ≠ physical ∧ (table j).1 ≠ 0

theorem frameSlotFrom_finds (turns : Nat) (index : Slot)
    (here : 0 < turns → gap (frameHome physical) index + turns = frameRefSlots)
    (seen : ∀ j, gap (frameHome physical) j + turns < frameRefSlots → (table j).1 ≠ physical ∧ (table j).1 ≠ 0) :
    Finds table physical (frameSlotFrom table physical turns index) := by
  induction turns generalizing index with
  | zero => exact fun j => seen j (Nat.add_zero _ ▸ gap_lt _ j)
  | succ turns ih =>
    have place := here turns.succ_pos
    unfold frameSlotFrom
    split
    case isTrue same => exact same
    case isFalse other =>
      split
      case isTrue free => exact ⟨free, fun j before => seen j (by omega)⟩
      case isFalse full =>
        refine ih (next index) (fun more => ?_) fun j near => ?_
        · have apart : next index ≠ frameHome physical := by
            intro same
            have := gap_last index
            rw [same] at this
            omega
          rw [gap_next apart]
          omega
        · by_cases same : j = index
          · exact same ▸ ⟨other, full⟩
          · refine seen j ?_
            have : gap (frameHome physical) j ≠ gap (frameHome physical) index := fun eq => same (gap_inj eq)
            omega

theorem frameSlot_finds (table : Table) (physical : UInt64) :
    Finds table physical (frameSlot table physical) := by
  refine frameSlotFrom_finds frameRefSlots _ (fun _ => by simp) fun j near => ?_
  omega

theorem Sound.frameSlot_eq_ok (h : Sound table) (nonzero : physical ≠ 0) :
    frameSlot table physical = .ok slot ↔ (table slot).1 = physical := by
  have finds := frameSlot_finds table physical
  constructor
  · intro found
    rw [found] at finds
    exact finds
  intro key
  match found : frameSlot table physical with
  | .ok i =>
    rw [found] at finds
    rw [h.once i slot (finds.trans key.symm) (finds ▸ nonzero)]
  | .error none =>
    rw [found] at finds
    exact absurd key (finds slot).1
  | .error (some i) =>
    rw [found] at finds
    obtain ⟨free, before⟩ := finds
    -- The search passed the slot, or it stopped at an empty one on the way to it.
    rcases Nat.lt_trichotomy (gap (frameHome physical) slot) (gap (frameHome physical) i) with near | same | far
    · exact absurd key (before slot near).1
    · rw [gap_inj same, free] at key
      exact absurd key.symm nonzero
    · have full : homes table slot = some (frameHome physical) := key ▸ homes_of_ne (key ▸ nonzero)
      exact absurd (homes_eq_none.mpr free) (h.reached slot _ full i far)

theorem stays_iff {home : Slot} (apart : index ≠ hole) :
    (if hole ≤ index then hole < home ∧ home ≤ index else hole < home ∨ home ≤ index) ↔
      gap home index < gap home hole := by
  unfold gap
  grind

theorem removeFrom_permutes (turns : Nat) (table : Table) (hole index : Slot) (free : table hole = (0, 0))
    (closing : Closing (homes table) hole index)
    (enough : weight (homes table) * frameRefSlots + (frameRefSlots - gap hole index) ≤ turns) :
    ∃ σ : Perm Slot, removeFrom turns table hole index = some (table ∘ σ) ∧ Reached (homes (table ∘ σ)) := by
  have near := gap_lt hole index
  induction turns generalizing table hole index with
  | zero => omega
  | succ turns ih =>
    unfold removeFrom
    dsimp only
    split
    case isTrue last => exact ⟨Equiv.refl _, rfl, closing.closed (homes_eq_none.mpr last)⟩
    case isFalse full =>
      have apart : next index ≠ hole := by
        rintro rfl
        exact full (congrArg Prod.fst free)
      have home := homes_of_ne full
      generalize frameHome (table (next index)).1 = home' at home ⊢
      by_cases stays : gap home' (next index) < gap home' hole
      · rw [if_pos ((stays_iff apart).mpr stays)]
        refine ih table hole _ free (closing.stays home stays) ?_ (gap_lt _ _)
        rw [gap_next apart]
        omega
      rw [if_neg (mt (stays_iff apart).mp stays)]
      have different : gap home' (next index) ≠ gap home' hole := fun same => apart (gap_inj same)
      have past : gap home' hole < gap home' (next index) := by omega
      have moved : update (update table hole (table (next index))) (next index) (0, 0) =
          table ∘ swap hole (next index) := by
        rw [swap_comm, comp_swap_eq_update, free]
      have less := Nat.mul_le_mul_right frameRefSlots (Nat.succ_le_of_lt (weight_swap_lt closing.empty home past))
      rw [moved]
      obtain ⟨σ, done, reached⟩ := ih (table ∘ swap hole (next index)) _ _ (by simp [free])
        (homes_comp _ ▸ closing.moved home past) (by
          rw [homes_comp, gap_self, Nat.sub_zero]
          rw [Nat.succ_mul] at less
          omega) (gap_lt _ _)
      exact ⟨σ.trans (swap hole (next index)), done, reached⟩

theorem Sound.frameRemove_spec (h : Sound table) (slot : Slot) : ∃ σ : Perm Slot,
    frameRemove table slot = some (update table slot (0, 0) ∘ σ) ∧ Sound (update table slot (0, 0) ∘ σ) := by
  have closing : Closing (homes (update table slot (0, 0))) slot slot := by
    rw [homes_update]
    exact .start h.reached
  obtain ⟨σ, done, reached⟩ := removeFrom_permutes removeTurns (update table slot (0, 0)) slot slot (by simp) closing (by
    have := Nat.mul_le_mul_right frameRefSlots (weight_le (homes (update table slot (0, 0))))
    unfold removeTurns
    omega)
  refine ⟨σ, done, fun i j same full => σ.injective ?_, reached⟩
  grind [h.once (σ i) (σ j)]

theorem Sound.removed_entries (h : Sound table) (σ : Perm Slot) {entry : UInt64 × UInt32} (nonzero : entry.1 ≠ 0) :
    (∃ i, (update table slot (0, 0) ∘ σ) i = entry) ↔ entry.1 ≠ (table slot).1 ∧ ∃ i, table i = entry := by
  constructor
  · rintro ⟨i, rfl⟩
    grind [h.once (σ i) slot]
  · rintro ⟨other, i, rfl⟩
    refine ⟨σ.symm i, ?_⟩
    grind

/-- The table is sound and holds the map. -/
structure Inv (s : State) : Prop where
  sound : Sound s.table
  holds : ∀ physical ≠ 0, ∀ count, s.counts physical = some count ↔ ∃ i, s.table i = (physical, count)

theorem Inv.set {s : State} (h : Inv s) {value : Option UInt32} (sound : Sound table')
    (own : ∀ count, value = some count ↔ ∃ i, table' i = (physical, count))
    (others : ∀ entry : UInt64 × UInt32, entry.1 ≠ 0 → entry.1 ≠ physical →
      ((∃ i, table' i = entry) ↔ ∃ i, s.table i = entry)) :
    Inv ⟨table', update s.counts physical value⟩ where
  sound := sound
  holds := by
    intro other nonzero count
    by_cases same : other = physical
    · rw [same]
      simpa using own count
    · simpa [update_of_ne same, others (other, count) nonzero same] using h.holds other nonzero count

theorem Inv.put {s : State} (h : Inv s) (sound : Sound (update s.table slot (physical, count)))
    (place : ∀ i, (s.table i).1 = physical → i = slot) (free : (s.table slot).1 = physical ∨ (s.table slot).1 = 0) :
    Inv ⟨update s.table slot (physical, count), update s.counts physical (some count)⟩ := by
  refine h.set sound (fun other => ?_) fun entry full other => ?_
  · constructor
    · rintro ⟨⟩
      exact ⟨slot, update_self _ _ _⟩
    · grind
  · constructor
    · grind
    · rintro ⟨i, rfl⟩
      exact ⟨i, update_of_ne (by grind) _ _⟩

theorem Sound.absent {stop : Option Slot} (h : Sound table) (nonzero : physical ≠ 0)
    (found : frameSlot table physical = .error stop) (i : Slot) : (table i).1 ≠ physical := by
  intro key
  rw [(h.frameSlot_eq_ok nonzero).mpr key] at found
  cases found

theorem Inv.untracked {s : State} {stop : Option Slot} (h : Inv s) (nonzero : physical ≠ 0)
    (found : frameSlot s.table physical = .error stop) : s.counts physical = none := by
  by_contra some
  obtain ⟨count, counted⟩ := Option.ne_none_iff_exists'.mp some
  obtain ⟨i, entry⟩ := (h.holds _ nonzero _).mp counted
  exact h.sound.absent nonzero found i (congrArg Prod.fst entry)

theorem Sound.recount (h : Sound table) (slot : Slot) (count : UInt32) :
    Sound (update table slot ((table slot).1, count)) := by
  have keys : ∀ i, (update table slot ((table slot).1, count) i).1 = (table i).1 := by grind
  have same : homes (update table slot ((table slot).1, count)) = homes table := by
    funext i
    rw [homes, homes, keys]
  exact ⟨fun i j => by rw [keys, keys]; exact h.once i j, same ▸ h.reached⟩

theorem Sound.insert (h : Sound table) (nonzero : physical ≠ 0) (found : frameSlot table physical = .error (some slot)) :
    Sound (update table slot (physical, count)) := by
  have absent := h.absent nonzero found
  obtain ⟨free, before⟩ : Finds table physical (.error (some slot)) := found ▸ frameSlot_finds table physical
  refine ⟨fun i j => ?_, ?_⟩
  · grind [h.once i j]
  · rw [homes_update, if_neg nonzero]
    exact h.reached.insert fun j near => mt homes_eq_none.mp (before j near).2

theorem Inv.recount {s : State} (h : Inv s) (nonzero : physical ≠ 0) (found : frameSlot s.table physical = .ok slot)
    (count : UInt32) :
    Inv ⟨update s.table slot ((s.table slot).1, count), update s.counts physical (some count)⟩ ∧
      s.counts physical = some (s.table slot).2 := by
  have key := (h.sound.frameSlot_eq_ok nonzero).mp found
  have sound := h.sound.recount slot count
  rw [key] at sound ⊢
  refine ⟨h.put sound (fun i same => ?_) (.inl key), (h.holds _ nonzero _).mpr ⟨slot, Prod.ext key rfl⟩⟩
  exact h.sound.once i slot (same.trans key.symm) (same ▸ nonzero)

theorem add_inv {s : State} (h : Inv s) (frame : Frame) (untracked : UInt32) :
    Inv (s.added (s.counts.add frame.address untracked) (frameAdd s.table frame.address untracked)) := by
  unfold frameAdd Counts.add
  split
  case h_1 slot found =>
    split
    · obtain ⟨inv, counted⟩ := h.recount frame.nonzero found ((s.table slot).2 + 1)
      rw [counted]
      exact inv
    · exact h
  case h_2 slot found =>
    obtain ⟨free, -⟩ : Finds s.table frame.address (.error (some slot)) := found ▸ frameSlot_finds _ _
    rw [h.untracked frame.nonzero found]
    exact h.put (h.sound.insert frame.nonzero found)
      (fun i key => absurd key (h.sound.absent frame.nonzero found i)) (.inr free)
  case h_3 => exact h

theorem Inv.remove {s : State} (h : Inv s) (nonzero : physical ≠ 0) (found : frameSlot s.table physical = .ok slot) :
    ∃ table, frameRemove s.table slot = some table ∧ Inv ⟨table, update s.counts physical none⟩ := by
  have key := (h.sound.frameSlot_eq_ok nonzero).mp found
  obtain ⟨σ, done, sound⟩ := h.sound.frameRemove_spec slot
  refine ⟨_, done, h.set sound (fun count => ?_) fun entry full other => ?_⟩
  · rw [h.sound.removed_entries σ nonzero]
    simp [key]
  · rw [h.sound.removed_entries σ full, key]
    exact and_iff_right other

theorem release_inv {s : State} (h : Inv s) (frame : Frame) : Inv (s.step (.release frame)) := by
  unfold State.step frameRelease Counts.release
  dsimp only
  match found : frameSlot s.table frame.address with
  | .ok slot =>
    obtain ⟨inv, counted⟩ := h.recount frame.nonzero found ((s.table slot).2 - 1)
    rw [counted]
    dsimp only
    by_cases more : 1 < (s.table slot).2
    · simpa [more] using inv
    · obtain ⟨table, done, inv⟩ := h.remove frame.nonzero found
      simpa [more, done] using inv
  | .error stop =>
    have same := h.untracked frame.nonzero found
    rw [same, Option.bind_none, ← same, update_eq_self]
    exact h

theorem start_inv : Inv .start where
  sound := ⟨fun _ _ _ full => absurd rfl full, fun _ _ full => by cases full⟩
  holds := fun physical nonzero count => by simp [State.start, nonzero.symm]

theorem step_inv (s : State) (call : Call) (h : Inv s) : Inv (s.step call) := by
  cases call with
  | share frame => exact add_inv h frame 2
  | retain frame => exact add_inv h frame 1
  | release frame => exact release_inv h frame

theorem Inv.correct (s : State) (h : Inv s) : MapCorrect s where
  found := fun frame slot => by
    rw [h.sound.frameSlot_eq_ok frame.nonzero]
    constructor
    · intro key
      exact ⟨_, (h.holds _ frame.nonzero _).mpr ⟨slot, Prod.ext key rfl⟩, Prod.ext key rfl⟩
    · rintro ⟨count, -, entry⟩
      exact congrArg Prod.fst entry
  live := fun frame some => by
    obtain ⟨count, counted⟩ := Option.isSome_iff_exists.mp some
    obtain ⟨slot, entry⟩ := (h.holds _ frame.nonzero _).mp counted
    exact ⟨slot, (h.sound.frameSlot_eq_ok frame.nonzero).mpr (congrArg Prod.fst entry)⟩
  once := h.sound.once
  full := fun frame found i => by
    have all : Finds s.table frame.address (.error none) := found ▸ frameSlot_finds _ _
    exact (all i).2
  removed := fun slot _ => by
    obtain ⟨σ, done, -⟩ := h.sound.frameRemove_spec slot
    exact ⟨_, done, fun entry full => h.sound.removed_entries σ full⟩

theorem frame_refs_are_a_map (calls : List Call) : Run.Throughout State.step MapCorrect .start calls :=
  Run.throughout_of_inv step_inv Inv.correct calls start_inv

end AerOS.Proof.FrameRefs
