import Mathlib.Algebra.Order.Ring.Int
import Mathlib.Order.Interval.Finset.Nat

/-!
# Lists of ranges

Half-open ranges of numbers, `Scattered` when no two overlap and `Separated` when they stand in order with gaps.
-/

namespace AerOS.Lib
open List

variable {P : Nat → Prop} {k start stop : Nat}
variable {rs qs : List Range} {x : Nat} {a b r : Range}

structure Range where
  start : Nat
  stop : Nat
  deriving DecidableEq, Repr

namespace Range

def Has (r : Range) (x : Nat) : Prop := r.start ≤ x ∧ x < r.stop

instance (r : Range) (x : Nat) : Decidable (r.Has x) := inferInstanceAs (Decidable (_ ∧ _))

def size (r : Range) : Nat := r.stop - r.start

def Clear (a b : Range) : Prop := a.stop ≤ b.start ∨ b.stop ≤ a.start

end Range

def Cover (rs : List Range) (x : Nat) : Prop := ∃ r ∈ rs, r.Has x

def total (rs : List Range) : Nat := (rs.map Range.size).sum

@[mk_iff]
structure Scattered (rs : List Range) : Prop where
  proper : ∀ r ∈ rs, r.start < r.stop
  clear : rs.Pairwise Range.Clear

@[mk_iff]
structure Separated (rs : List Range) : Prop where
  proper : ∀ r ∈ rs, r.start < r.stop
  ordered : rs.Pairwise fun a b => a.stop < b.start

@[simp] theorem cover_nil (x : Nat) : ¬ Cover [] x := by
  rintro ⟨r, mem, -⟩
  cases mem

@[simp] theorem cover_cons (r : Range) (rs : List Range) (x : Nat) :
    Cover (r :: rs) x ↔ r.Has x ∨ Cover rs x := by
  simp [Cover]

theorem cover_singleton {r : Range} {x : Nat} : Cover [r] x ↔ r.Has x := by simp

@[simp] theorem cover_append (rs qs : List Range) (x : Nat) :
    Cover (rs ++ qs) x ↔ Cover rs x ∨ Cover qs x := by
  simp only [Cover, mem_append, or_and_right, exists_or]

@[simp] theorem total_nil : total [] = 0 := rfl

@[simp] theorem total_cons (r : Range) (rs : List Range) : total (r :: rs) = r.size + total rs := by
  simp [total]

@[simp] theorem total_append (rs qs : List Range) : total (rs ++ qs) = total rs + total qs := by
  simp [total]

theorem Cover.perm (perm : rs.Perm qs) (x : Nat) : Cover rs x ↔ Cover qs x := by
  unfold Cover
  simp only [perm.mem_iff]

theorem total_perm (perm : rs.Perm qs) : total rs = total qs := (perm.map _).sum_eq

def cells (rs : List Range) : Finset Nat := rs.foldr (fun r s => Finset.Ico r.start r.stop ∪ s) ∅

theorem mem_cells : x ∈ cells rs ↔ Cover rs x := by
  induction rs with
  | nil => simp [cells]
  | cons r rs ih =>
    rw [cover_cons, ← ih]
    simp [cells, Range.Has]

theorem card_cells_le (rs : List Range) : (cells rs).card ≤ total rs := by
  induction rs with
  | nil => exact Nat.le_refl 0
  | cons r rs ih =>
    rw [total_cons]
    exact (Finset.card_union_le _ _).trans (Nat.add_le_add (by simp [Range.size]) ih)

theorem clear_symm (h : a.Clear b) : b.Clear a := Or.symm h

theorem clear_not_both (h : a.Clear b) (ha : a.Has x) : ¬ b.Has x := by
  rintro hb
  unfold Range.Has at ha hb
  rcases h with h | h <;> omega

theorem Scattered.perm (perm : rs.Perm qs) (h : Scattered rs) : Scattered qs :=
  ⟨fun r mem => h.proper r (perm.mem_iff.mpr mem), (perm.pairwise_iff clear_symm).mp h.clear⟩

theorem scattered_cons : Scattered (r :: rs) ↔ r.start < r.stop ∧ (∀ q ∈ rs, r.Clear q) ∧ Scattered rs := by
  simp only [scattered_iff, forall_mem_cons, pairwise_cons]
  tauto

section
variable (h : Scattered rs)
include h

theorem Scattered.card_cells : (cells rs).card = total rs := by
  induction rs with
  | nil => rfl
  | cons r rs ih =>
    obtain ⟨-, clear, rest⟩ := scattered_cons.mp h
    rw [total_cons, ← ih rest]
    refine (Finset.card_union_of_disjoint (Finset.disjoint_left.mpr fun x here there => ?_)).trans ?_
    · obtain ⟨q, mem, has⟩ := mem_cells.mp there
      exact clear_not_both (clear q mem) (Finset.mem_Ico.mp here) has
    rw [Nat.card_Ico]
    rfl

theorem Scattered.total_le (inside : ∀ x, Cover rs x → Cover qs x) : total rs ≤ total qs := by
  rw [← h.card_cells]
  exact (Finset.card_le_card fun x mem => mem_cells.mpr (inside x (mem_cells.mp mem))).trans (card_cells_le qs)

theorem Scattered.total_eq (h' : Scattered qs)
    (same : ∀ x, Cover rs x ↔ Cover qs x) : total rs = total qs :=
  le_antisymm (h.total_le fun x => (same x).mp) (h'.total_le fun x => (same x).mpr)

end

theorem Separated.scattered (h : Separated rs) : Scattered rs :=
  ⟨h.proper, h.ordered.imp fun lt => .inl lt.le⟩

theorem Separated.starts (h : Separated rs) : rs.Pairwise fun a b => a.start ≤ b.start := by
  refine List.Pairwise.imp_of_mem ?_ h.ordered
  intro a b memA _ _
  have := h.proper a memA
  omega

theorem separated_cons :
    Separated (r :: rs) ↔ r.start < r.stop ∧ (∀ q ∈ rs, r.stop < q.start) ∧ Separated rs := by
  simp only [separated_iff, forall_mem_cons, pairwise_cons]
  tauto

theorem separated_append : Separated (rs ++ qs) ↔
      Separated rs ∧ Separated qs ∧ ∀ r ∈ rs, ∀ q ∈ qs, r.stop < q.start := by
  simp only [separated_iff, forall_mem_append, pairwise_append]
  tauto

theorem Scattered.sorted (h : Scattered rs)
    (sorted : rs.Pairwise fun a b => a.start ≤ b.start) : rs.Pairwise fun a b => a.stop ≤ b.start := by
  have both := h.clear.and sorted
  refine List.Pairwise.imp_of_mem ?_ both
  rintro a b memA memB ⟨clear, le⟩
  have := h.proper a memA
  have := h.proper b memB
  rcases clear with before | _
  · exact before
  · omega

def joined : Range → List Range → List Range
  | r, [] => [r]
  | r, q :: rs =>
    if r.stop ≥ q.start then joined ⟨r.start, max r.stop q.stop⟩ rs else r :: joined q rs

def joinAll : List Range → List Range
  | [] => []
  | r :: rs => joined r rs

theorem joined_spec (r : Range) (rs : List Range) (proper : ∀ q ∈ r :: rs, q.start < q.stop)
    (ordered : (r :: rs).Pairwise fun a b => a.stop ≤ b.start) :
    Separated (joined r rs) ∧ (∀ q ∈ joined r rs, r.start ≤ q.start) ∧
      ∀ x, Cover (joined r rs) x ↔ Cover (r :: rs) x := by
  induction rs generalizing r with
  | nil =>
    have first := proper r mem_cons_self
    refine ⟨separated_cons.mpr ⟨first, nofun, nofun, List.Pairwise.nil⟩, ?_, fun x => Iff.rfl⟩
    intro q mem
    obtain rfl := mem_singleton.mp mem
    exact le_rfl
  | cons q rs ih =>
    obtain ⟨first, rest⟩ := pairwise_cons.mp ordered
    obtain ⟨second, later⟩ := pairwise_cons.mp rest
    have properR := proper r mem_cons_self
    have properQ := proper q (mem_cons_of_mem r mem_cons_self)
    have le := first q mem_cons_self
    have properRest : ∀ p ∈ rs, p.start < p.stop := fun p mem =>
      proper p (mem_cons_of_mem r (mem_cons_of_mem q mem))
    unfold joined
    split
    · next _ =>
      have stop : max r.stop q.stop = q.stop := Nat.max_eq_right (by omega)
      rw [stop]
      have properJoin : ∀ p ∈ (⟨r.start, q.stop⟩ : Range) :: rs, p.start < p.stop :=
        forall_mem_cons.mpr ⟨by dsimp only; omega, properRest⟩
      obtain ⟨separated, above, cover⟩ := ih ⟨r.start, q.stop⟩ properJoin
        (pairwise_cons.mpr ⟨second, later⟩)
      refine ⟨separated, above, fun x => ?_⟩
      rw [cover]
      simp only [cover_cons, Range.Has]
      rw [← or_assoc]
      apply or_congr_left
      omega
    · next _ =>
      obtain ⟨separated, above, cover⟩ := ih q (fun p mem => proper p (mem_cons_of_mem r mem)) rest
      refine ⟨separated_cons.mpr ⟨properR, fun p mem => ?_, separated⟩,
        forall_mem_cons.mpr ⟨le_rfl, fun p mem => ?_⟩, fun x => ?_⟩
      · have := above p mem
        omega
      · have := above p mem
        omega
      · rw [cover_cons, cover, ← cover_cons]

theorem joinAll_spec (rs : List Range) (proper : ∀ q ∈ rs, q.start < q.stop)
    (ordered : rs.Pairwise fun a b => a.stop ≤ b.start) :
    Separated (joinAll rs) ∧ ∀ x, Cover (joinAll rs) x ↔ Cover rs x := by
  cases rs with
  | nil => exact ⟨⟨nofun, List.Pairwise.nil⟩, fun x => Iff.rfl⟩
  | cons r rs =>
    obtain ⟨separated, -, cover⟩ := joined_spec r rs proper ordered
    exact ⟨separated, cover⟩

theorem joined_length_le (r : Range) (rs : List Range) : (joined r rs).length ≤ rs.length + 1 := by
  induction rs generalizing r with
  | nil => exact Nat.le_refl 1
  | cons q rs ih =>
    unfold joined
    split
    · exact Nat.le_succ_of_le (ih _)
    · exact Nat.succ_le_succ (ih q)

theorem joinAll_length_le (rs : List Range) : (joinAll rs).length ≤ rs.length := by
  cases rs with
  | nil => exact Nat.le_refl 0
  | cons r rs => exact joined_length_le r rs

theorem joinAll_forall {Q : Range → Prop} (join : ∀ a b, Q a → Q b → Q ⟨a.start, max a.stop b.stop⟩)
    (h : ∀ q ∈ rs, Q q) : ∀ q ∈ joinAll rs, Q q := by
  cases rs with
  | nil => exact h
  | cons r rs =>
    change ∀ q ∈ joined r rs, Q q
    induction rs generalizing r with
    | nil => exact h
    | cons q rs ih =>
      obtain ⟨first, rest⟩ := forall_mem_cons.mp h
      obtain ⟨second, last⟩ := forall_mem_cons.mp rest
      unfold joined
      split
      · exact ih _ (forall_mem_cons.mpr ⟨join r q first second, last⟩)
      · exact forall_mem_cons.mpr ⟨first, ih q rest⟩

def Ends (P : Nat → Prop) (rs : List Range) : Prop := ∀ r ∈ rs, P r.start ∧ P r.stop

theorem Ends.perm (perm : rs.Perm qs) (h : Ends P rs) : Ends P qs := fun r mem => h r (perm.mem_iff.mpr mem)

theorem ends_cons : Ends P (r :: rs) ↔ (P r.start ∧ P r.stop) ∧ Ends P rs := forall_mem_cons

theorem ends_append : Ends P (rs ++ qs) ↔ Ends P rs ∧ Ends P qs := forall_mem_append

theorem Ends.join (h : Ends P (a :: b :: rs)) : Ends P (⟨a.start, b.stop⟩ :: rs) := by
  obtain ⟨endsA, tail⟩ := ends_cons.mp h
  obtain ⟨endsB, ends⟩ := ends_cons.mp tail
  exact ends_cons.mpr ⟨⟨endsA.1, endsB.2⟩, ends⟩

theorem joinAll_ends (h : Ends P rs) : Ends P (joinAll rs) := by
  refine joinAll_forall (fun a b first second => ⟨first.1, ?_⟩) h
  rcases Nat.le_total a.stop b.stop with le | le
  · rw [Nat.max_eq_right le]
    exact second.2
  · rw [Nat.max_eq_left le]
    exact first.2

theorem joinAll_size_ge (h : ∀ q ∈ rs, k ≤ q.size) : ∀ q ∈ joinAll rs, k ≤ q.size := by
  refine joinAll_forall (fun a b first _ => ?_) h
  unfold Range.size at first ⊢
  dsimp only
  omega

theorem ordered_total_le {lo hi : Nat} (le : lo ≤ hi)
    (inside : ∀ r ∈ rs, lo ≤ r.start ∧ r.start ≤ r.stop ∧ r.stop ≤ hi)
    (ordered : rs.Pairwise fun a b => a.stop ≤ b.start) : total rs ≤ hi - lo := by
  induction rs generalizing lo with
  | nil => exact Nat.zero_le _
  | cons r rs ih =>
    obtain ⟨first, rest⟩ := pairwise_cons.mp ordered
    obtain ⟨here, later⟩ := forall_mem_cons.mp inside
    have := ih here.2.2 (fun q mem => ⟨first q mem, (later q mem).2⟩) rest
    rw [total_cons]
    unfold Range.size
    omega

theorem length_mul_le_total (h : ∀ r ∈ rs, k ≤ r.size) : rs.length * k ≤ total rs := by
  induction rs with
  | nil => simp
  | cons r rs ih =>
    obtain ⟨_, rest⟩ := forall_mem_cons.mp h
    have := ih rest
    rw [length_cons, Nat.succ_mul, total_cons]
    omega

theorem Scattered.join (h : Scattered (a :: b :: rs))
    (touch : a.stop = b.start) : Scattered (⟨a.start, b.stop⟩ :: rs) ∧
      ∀ x, Cover (⟨a.start, b.stop⟩ :: rs) x ↔ Cover (a :: b :: rs) x := by
  obtain ⟨_, clearA, rest⟩ := scattered_cons.mp h
  obtain ⟨_, clearB, last⟩ := scattered_cons.mp rest
  refine ⟨scattered_cons.mpr ⟨?_, fun q mem => ?_, last⟩, fun x => ?_⟩
  · change a.start < b.stop
    omega
  · have first := clearA q (mem_cons_of_mem b mem)
    have second := clearB q mem
    have properQ := last.proper q mem
    unfold Range.Clear at first second ⊢
    dsimp only
    omega
  simp only [cover_cons, Range.Has]
  rw [← or_assoc]
  apply or_congr_left
  omega

def Range.without (r : Range) (start stop : Nat) : List Range :=
  (if r.start < start then [⟨r.start, start⟩] else []) ++ (if stop < r.stop then [⟨stop, r.stop⟩] else [])

theorem mem_without {q : Range} :
    q ∈ r.without start stop ↔ r.start < start ∧ q = ⟨r.start, start⟩ ∨ stop < r.stop ∧ q = ⟨stop, r.stop⟩ := by
  unfold Range.without
  split <;> split <;> simp [*]

theorem without_inside {q : Range} (inside : r.start ≤ start ∧ stop ≤ r.stop)
    (proper : start < stop) (mem : q ∈ r.without start stop) :
    q.start < q.stop ∧ r.start ≤ q.start ∧ q.stop ≤ r.stop := by
  rcases mem_without.mp mem with ⟨_, rfl⟩ | ⟨_, rfl⟩ <;> dsimp only <;> omega

theorem without_spec (inside : r.start ≤ start ∧ stop ≤ r.stop) (proper : start < stop) :
    Separated (r.without start stop) ∧ total (r.without start stop) + (stop - start) = r.size ∧
      ∀ x, Cover (r.without start stop) x ↔ r.Has x ∧ ¬ (start ≤ x ∧ x < stop) := by
  refine ⟨⟨fun q mem => (without_inside inside proper mem).1, ?_⟩, ?_, fun x => ?_⟩
  · unfold Range.without
    split <;> split <;> simp
    omega
  · unfold Range.without
    split <;> split <;> simp [Range.size] <;> omega
  · unfold Range.without
    split <;> split <;> simp [Range.Has] <;> omega

theorem without_ends (hr : P r.start ∧ P r.stop)
    (hs : P start ∧ P stop) : Ends P (r.without start stop) := by
  intro q mem
  rcases mem_without.mp mem with ⟨-, rfl⟩ | ⟨-, rfl⟩
  · exact ⟨hr.1, hs.1⟩
  · exact ⟨hs.2, hr.2⟩

theorem Separated.without {before after : List Range}
    (h : Separated (before ++ r :: after)) (inside : r.start ≤ start ∧ stop ≤ r.stop)
    (proper : start < stop) : Separated (before ++ r.without start stop ++ after) ∧
      total (before ++ r.without start stop ++ after) + (stop - start) = total (before ++ r :: after) ∧
      ∀ x, Cover (before ++ r.without start stop ++ after) x ↔
        Cover (before ++ r :: after) x ∧ ¬ (start ≤ x ∧ x < stop) := by
  obtain ⟨first, rest, across⟩ := separated_append.mp h
  obtain ⟨_, later, last⟩ := separated_cons.mp rest
  obtain ⟨separated, _, cover⟩ := without_spec inside proper
  refine ⟨?_, ?_, fun x => ?_⟩
  · rw [append_assoc]
    refine separated_append.mpr ⟨first, separated_append.mpr ⟨separated, last, ?_⟩, ?_⟩
    · intro q mem p memP
      have := without_inside inside proper mem
      have := later p memP
      omega
    intro p memP q mem
    have atR := across p memP r mem_cons_self
    rcases mem_append.mp mem with mem | mem
    · have := without_inside inside proper mem
      omega
    · exact across p memP q (mem_cons_of_mem r mem)
  · simp only [total_append, total_cons]
    omega
  · simp only [cover_append, cover_cons, cover]
    -- The other ranges keep their distance from the part that is taken out.
    have apartBefore : Cover before x → ¬ (start ≤ x ∧ x < stop) := by
      rintro ⟨p, memP, has⟩ within
      have := across p memP r mem_cons_self
      unfold Range.Has at has
      omega
    have apartAfter : Cover after x → ¬ (start ≤ x ∧ x < stop) := by
      rintro ⟨p, memP, has⟩ within
      have := later p memP
      unfold Range.Has at has
      omega
    rw [or_and_right, or_and_right, and_iff_left_of_imp apartBefore, and_iff_left_of_imp apartAfter, or_assoc]

theorem clear_of_disjoint (properA : a.start < a.stop) (properB : b.start < b.stop)
    (disjoint : ∀ x, ¬ (a.Has x ∧ b.Has x)) : a.Clear b := by
  by_contra overlap
  unfold Range.Clear at overlap
  refine disjoint (max a.start b.start) ⟨⟨?_, ?_⟩, ⟨?_, ?_⟩⟩ <;> omega

theorem scattered_append : Scattered (rs ++ qs) ↔
      Scattered rs ∧ Scattered qs ∧ ∀ r ∈ rs, ∀ q ∈ qs, r.Clear q := by
  simp only [scattered_iff, forall_mem_append, pairwise_append]
  tauto

structure Tiles (rs : List Range) (start stop : Nat) : Prop where
  scattered : Scattered rs
  cover : ∀ x, Cover rs x ↔ start ≤ x ∧ x < stop
  size : total rs = stop - start

theorem Tiles.perm (perm : rs.Perm qs) (h : Tiles rs start stop) : Tiles qs start stop :=
  ⟨h.scattered.perm perm, fun x => (Cover.perm perm x).symm.trans (h.cover x),
    (total_perm perm).symm.trans h.size⟩

theorem Tiles.replace {xs ys rest : List Range} (h : Tiles (xs ++ rest) start stop) (scattered : Scattered ys)
    (cover : ∀ x, Cover ys x ↔ Cover xs x) (size : total ys = total xs) : Tiles (ys ++ rest) start stop := by
  obtain ⟨-, scatteredRest, across⟩ := scattered_append.mp h.scattered
  refine ⟨scattered_append.mpr ⟨scattered, scatteredRest, fun y memY q memQ => ?_⟩, fun x => ?_, ?_⟩
  · apply clear_of_disjoint (scattered.proper y memY) (scatteredRest.proper q memQ)
    rintro x ⟨hasY, hasQ⟩
    obtain ⟨r, memR, hasR⟩ := (cover x).mp ⟨y, memY, hasY⟩
    exact clear_not_both (across r memR q memQ) hasR hasQ
  · rw [cover_append, cover, ← cover_append]
    exact h.cover x
  · rw [total_append, size, ← total_append]
    exact h.size

theorem Separated.single (h : Separated rs)
    (cover : ∀ x, Cover rs x ↔ start ≤ x ∧ x < stop) (proper : start < stop) : rs = [⟨start, stop⟩] := by
  cases rs with
  | nil => exact absurd ((cover start).mpr ⟨le_rfl, proper⟩) (cover_nil start)
  | cons r rest =>
    obtain ⟨_, above, _⟩ := separated_cons.mp h
    have within : ∀ q ∈ r :: rest, start ≤ q.start ∧ q.start < stop := fun q mem =>
      (cover q.start).mp ⟨q, mem, le_rfl, h.proper q mem⟩
    have atStart : r.start = start := by
      have := (within r mem_cons_self).1
      obtain ⟨q, mem, has⟩ := (cover start).mpr ⟨le_rfl, proper⟩
      unfold Range.Has at has
      rcases mem_cons.mp mem with rfl | mem
      · omega
      have := above q mem
      omega
    have atStop : r.stop = stop := by
      have last := (cover (r.stop - 1)).mp ⟨r, mem_cons_self, by omega, by omega⟩
      by_contra early
      obtain ⟨q, mem, has⟩ := (cover r.stop).mpr ⟨by omega, by omega⟩
      unfold Range.Has at has
      rcases mem_cons.mp mem with rfl | mem
      · omega
      have := above q mem
      omega
    have none : rest = [] := by
      apply eq_nil_iff_forall_not_mem.mpr
      intro q mem
      have := above q mem
      have := within q (mem_cons_of_mem r mem)
      omega
    rw [none, ← atStart, ← atStop]

theorem Separated.tail_iff (h : Separated (r :: rs)) : Cover rs x ↔ Cover (r :: rs) x ∧ r.stop < x := by
  have later : Cover rs x → r.stop < x := fun ⟨q, mem, has⟩ => ((separated_cons.mp h).2.1 q mem).trans_le has.1
  rw [cover_cons, Range.Has]
  grind

/-- Separated ranges are known from the numbers they cover. -/
theorem Separated.eq_of_cover (h : Separated rs) (h' : Separated qs) (same : ∀ x, Cover rs x ↔ Cover qs x) :
    rs = qs := by
  induction rs generalizing qs with
  | nil =>
    refine (eq_nil_iff_forall_not_mem.mpr fun q mem => ?_).symm
    exact cover_nil _ ((same q.start).mpr ⟨q, mem, le_rfl, h'.proper q mem⟩)
  | cons r rs ih =>
    have proper := h.proper r mem_cons_self
    cases qs with
    | nil => exact absurd ((same r.start).mp ⟨r, mem_cons_self, le_rfl, proper⟩) (cover_nil _)
    | cons q qs =>
      have proper' := h'.proper q mem_cons_self
      have ends (x : Nat) : r.start ≤ x ∧ x < r.stop ∨ Cover rs x ↔ q.start ≤ x ∧ x < q.stop ∨ Cover qs x :=
        (cover_cons r rs x).symm.trans ((same x).trans (cover_cons q qs x))
      have tail (x : Nat) := (h.tail_iff (x := x)).mp
      have tail' (x : Nat) := (h'.tail_iff (x := x)).mp
      have start : r.start = q.start := by grind [ends r.start, ends q.start]
      have stop : r.stop = q.stop := by grind [ends r.stop, ends q.stop]
      obtain rfl : r = q := by
        cases r
        cases q
        simp_all
      rw [ih (separated_cons.mp h).2.2 (separated_cons.mp h').2.2 fun x => ?_]
      rw [h.tail_iff, h'.tail_iff, same]

theorem Tiles.inside (h : Tiles rs start stop) (mem : r ∈ rs) : start ≤ r.start ∧ r.stop ≤ stop := by
  have proper := h.scattered.proper r mem
  have first := (h.cover r.start).mp ⟨r, mem, le_rfl, proper⟩
  have last := (h.cover (r.stop - 1)).mp ⟨r, mem, by omega, by omega⟩
  omega

end AerOS.Lib
