import AerOS.Proof.Fat.Reading
import Mathlib.Data.Finset.Card

namespace AerOS.Proof.Fat
open Lib Lib.Action AerOS.Fat

variable {g : Geometry} {disk : Nat → Sector}
variable {marks : Marks} {cluster depth length n : Nat} {node : Node}
variable {r : FsckReport} {dir : Nat}

def unmarked (g : Geometry) (marks : Marks) : Finset Nat :=
  (Finset.range (g.clusters + 2)).filter fun cluster => marks cluster = false

theorem unmarked_mark (held : g.Holds cluster) (fresh : marks cluster = false) :
    (unmarked g (Function.update marks cluster true)).card + 1 = (unmarked g marks).card := by
  have member : cluster ∈ unmarked g marks := by
    rw [unmarked, Finset.mem_filter, Finset.mem_range]
    exact ⟨held.2, fresh⟩
  have same : unmarked g (Function.update marks cluster true) = (unmarked g marks).erase cluster := by
    ext other
    by_cases here : other = cluster <;> simp [unmarked, here]
  rw [same, Finset.card_erase_add_one member]

theorem card_unmarked_le (marks : Marks) : (unmarked g marks).card ≤ g.clusters + 2 := by
  have := Finset.card_filter_le (Finset.range (g.clusters + 2)) fun cluster => marks cluster = false
  rw [Finset.card_range] at this
  exact this

structure Tally (r : FsckReport) (n : Nat) : Prop where
  files : r.files ≤ n
  directories : r.directories ≤ n
  broken : r.brokenChains ≤ n
  cross : r.crossLinked ≤ n
  duplicates : r.duplicates ≤ n
  sizes : r.sizeMismatches ≤ n
  orphans : r.orphanClusters = 0

section
variable (sound : Sound g) (mapped : g.clusters + 2 ≤ fsckMapBytes * 8)
include sound

theorem reads_countFree (clusters : List Nat) {free : Nat} (small : free + clusters.length < 2 ^ 32) :
    Reads g disk (countFree g clusters free) (fun _ => True) := by
  induction clusters generalizing free with
  | nil => exact reads_pure trivial
  | cons cluster _ ih =>
    rw [List.length_cons] at small
    apply reads_bind (reads_fatGet sound cluster)
    intro _ _
    apply reads_ite
    · intro _
      apply reads_value (reads_u32 (by omega))
      exact ih (by omega)
    · exact fun _ => ih (by omega)

theorem reads_info : Reads g disk (info g) (fun _ => True) := by
  have := sound.clusters
  apply reads_value (reads_limit sound)
  apply reads_bind (reads_countFree sound _ (by rw [List.length_range']; omega))
  intro _ _
  apply reads_bind (reads_clusterBytes sound)
  intro _ _
  exact reads_pure trivial

include mapped

theorem reads_fsckChain {fuel : Nat} (enough : (unmarked g marks).card < fuel)
    (small : length + (unmarked g marks).card < 2 ^ 32) :
    Reads g disk (fsckChain g fuel cluster length marks) (fun result =>
      result.1 + (unmarked g result.2.2).card = length + (unmarked g marks).card ∧ length ≤ result.1 ∧
      (g.Holds cluster → entryAt g disk cluster ≠ 0 → result.1 = length → result.2.1 = .shared)) := by
  induction fuel generalizing cluster length marks with
  | zero => omega
  | succ fuel ih =>
    apply reads_ite
    · exact fun low => reads_pure ⟨rfl, le_rfl, fun held => absurd held.1 (by omega)⟩
    intro low
    apply reads_value (reads_limit sound)
    apply reads_ite
    · exact fun high => reads_pure ⟨rfl, le_rfl, fun held => absurd held.2 (by omega)⟩
    intro high
    have held : g.Holds cluster := ⟨by omega, by omega⟩
    apply reads_bind (reads_within (by rw [fsckMapBytes] at *; omega))
    rintro _ _
    apply reads_ite
    · exact fun _ => reads_pure ⟨rfl, le_rfl, fun _ _ _ => rfl⟩
    intro fresh
    have counted := unmarked_mark held (by simpa using fresh)
    apply reads_bind (reads_fatGet sound cluster)
    rintro _ ⟨_, rfl⟩
    apply reads_ite
    · exact fun free => reads_pure ⟨rfl, le_rfl, fun _ used => absurd free used⟩
    intro used
    apply reads_value (reads_u32 (by omega))
    apply reads_ite
    · intro _
      refine reads_pure ⟨?_, Nat.le_succ _, fun _ _ same => absurd same (Nat.succ_ne_self _)⟩
      simp only
      omega
    intro _
    apply reads_mono (ih (by omega) (by omega))
    rintro ⟨_, _, _⟩ ⟨_, _, _⟩
    exact ⟨by omega, by omega, fun _ _ same => by omega⟩

omit sound mapped in
theorem reads_countEntry (tally : Tally r n) (small : n + 1 < 2 ^ 32) :
    Reads g disk (countEntry node r) (fun r' => r'.files ≤ n + 1 ∧ r'.directories ≤ n + 1 ∧
      r'.brokenChains = r.brokenChains ∧ r'.crossLinked = r.crossLinked ∧ r'.duplicates = r.duplicates ∧
      r'.sizeMismatches = r.sizeMismatches ∧ r'.orphanClusters = 0) := by
  have files := tally.files
  have directories := tally.directories
  apply reads_ite
  · intro _
    apply reads_value (reads_u32 (by omega))
    exact reads_pure ⟨by simp only; omega, by simp only; omega, rfl, rfl, rfl, rfl, tally.orphans⟩
  intro _
  apply reads_value (reads_u32 (by omega))
  exact reads_pure ⟨by simp only; omega, by simp only; omega, rfl, rfl, rfl, rfl, tally.orphans⟩

omit mapped in
theorem reads_fsckSize {good : Nat} (small : r.sizeMismatches + 1 < 2 ^ 32) :
    Reads g disk (fsckSize g false node good r) (fun result => result.1 = node ∧
      ∃ n ≤ r.sizeMismatches + 1, result.2 = { r with sizeMismatches := n }) := by
  apply reads_value (reads_clusterBytes sound)
  apply reads_ite
  · intro _
    apply reads_value (reads_u32 (by omega))
    exact reads_pure ⟨rfl, _, le_rfl, rfl⟩
  · exact fun _ => reads_pure ⟨rfl, _, Nat.le_succ _, rfl⟩

omit sound mapped in
theorem reads_fsckOutcome {outcome : ChainEnd}
    (broken : r.brokenChains ≤ n) (cross : r.crossLinked ≤ n) (duplicates : r.duplicates ≤ n) (small : n + 1 < 2 ^ 32) :
    Reads g disk (fsckOutcome g false node length outcome r) (fun result =>
      (result.1 = some node ∧ (outcome = .shared → length ≠ 0) ∨ result.1 = none) ∧
      ∃ b ≤ n + 1, ∃ c ≤ n + 1, ∃ d ≤ n + 1,
        result.2 = { r with brokenChains := b, crossLinked := c, duplicates := d }) := by
  cases outcome with
  | good =>
    exact reads_pure ⟨.inl ⟨rfl, by simp⟩, _, Nat.le_succ_of_le broken, _, Nat.le_succ_of_le cross, _,
      Nat.le_succ_of_le duplicates, rfl⟩
  | shared =>
    apply reads_ite
    · intro _
      apply reads_value (reads_u32 (by omega))
      exact reads_pure ⟨.inr rfl, _, Nat.le_succ_of_le broken, _, Nat.le_succ_of_le cross, _,
        Nat.succ_le_succ duplicates, rfl⟩
    intro some
    apply reads_value (reads_u32 (by omega))
    exact reads_pure ⟨.inl ⟨rfl, fun _ => some⟩, _, Nat.le_succ_of_le broken, _, Nat.succ_le_succ cross, _,
      Nat.le_succ_of_le duplicates, rfl⟩
  | broken =>
    apply @reads_bind _ _ _ _ (fun result => result = (node, { r with brokenChains := r.brokenChains + 1 }))
    · apply reads_value (reads_u32 (by omega))
      exact reads_pure rfl
    rintro _ rfl
    exact reads_pure ⟨.inl ⟨rfl, by simp⟩, _, Nat.succ_le_succ broken, _, Nat.le_succ_of_le cross, _,
      Nat.le_succ_of_le duplicates, rfl⟩

theorem reads_fsckEntry {fuel : Nat} {p : Progressed} (tally : Tally p.report n)
    (small : n + 1 < 2 ^ 32) (enough : g.clusters + 2 < fuel)
    (used : node.isDirectory = true → 2 ≤ node.firstCluster →
      g.Holds node.firstCluster ∧ entryAt g disk node.firstCluster ≠ 0) :
    Reads g disk (fsckEntry g fuel false node p) (fun result =>
      Tally result.2.report (n + 1) ∧ (unmarked g result.2.marks).card ≤ (unmarked g p.marks).card ∧
      ∀ node', result.1 = some node' → node' = node ∧ (node.isDirectory = true → 2 ≤ node.firstCluster →
        (unmarked g result.2.marks).card < (unmarked g p.marks).card)) := by
  have clusters := sound.clusters
  have bound := @card_unmarked_le g p.marks
  have ⟨_, _, broken, cross, duplicates, sizes, _⟩ := tally
  apply reads_bind (reads_countEntry tally small)
  rintro r ⟨files', directories', _, _, _, _, orphans'⟩
  apply reads_ite
  · intro _
    apply reads_bind (reads_fsckChain sound mapped (by omega) (by omega))
    rintro ⟨length, _, marks⟩ ⟨sum, -, starts⟩
    apply reads_bind (reads_fsckOutcome (by omega : r.brokenChains ≤ n) (by omega) (by omega) small)
    rintro ⟨result, r'⟩ ⟨⟨rfl, fresh⟩ | rfl, b, hb, c, hc, d, hd, rfl⟩
    · apply reads_bind (reads_fsckSize sound (by simp only; omega))
      rintro ⟨_, _⟩ ⟨rfl, m, hm, rfl⟩
      refine reads_pure ⟨⟨files', directories', hb, hc, hd, by simp only at hm ⊢; omega, orphans'⟩, by simp only at sum ⊢; omega, ?_⟩
      rintro _ same
      cases same
      refine ⟨rfl, ?_⟩
      intro directory first
      obtain ⟨held, nonzero⟩ := used directory first
      have long : length ≠ 0 := fun zero => fresh (starts held nonzero zero) zero
      simp only at sum ⊢
      omega
    · refine reads_pure ⟨⟨files', directories', hb, hc, hd, ?_, orphans'⟩, by simp only at sum ⊢; omega, by simp⟩
      simp only
      omega
  · intro unnamed
    apply reads_bind (reads_fsckSize sound (by omega))
    rintro ⟨_, _⟩ ⟨rfl, m, hm, rfl⟩
    refine reads_pure ⟨⟨files', directories', ?_, ?_, ?_, ?_, orphans'⟩, le_rfl, ?_⟩
    · simp only
      omega
    · simp only
      omega
    · simp only
      omega
    · simp only at hm ⊢
      omega
    · rintro _ same
      cases same
      exact ⟨rfl, fun _ first => absurd first unnamed⟩

omit mapped in
theorem reads_freeOrphans (clusters : List Nat)
    (inside : ∀ cluster ∈ clusters, cluster < fsckMapBytes * 8) (small : r.orphanClusters + clusters.length < 2 ^ 32) :
    Reads g disk (freeOrphans g false marks clusters r) (fun _ => True) := by
  induction clusters generalizing r with
  | nil => exact reads_pure trivial
  | cons cluster rest ih =>
    rw [List.length_cons] at small
    have here := inside cluster (by simp)
    have others : ∀ cluster ∈ rest, cluster < fsckMapBytes * 8 := fun other h => inside other (by simp [h])
    apply reads_bind (reads_within (by rw [fsckMapBytes] at *; omega))
    intro _ _
    apply reads_ite
    · exact fun _ => ih others (by omega)
    intro _
    apply reads_bind (reads_fatGet sound cluster)
    intro _ _
    apply reads_ite
    · exact fun _ => ih others (by omega)
    intro _
    apply reads_value (reads_u32 (by omega))
    exact ih others (by simp only; omega)

end

section
variable (sound : Sound g) (harmless : Harmless g disk) (mapped : g.clusters + 2 ≤ fsckMapBytes * 8)
  {slots fuel : Nat} (bounded : ∀ depth dir index, DirAt g disk depth dir → slots ≤ index → slotAt g disk dir index = none)
  (enough : 2 ^ 32 < fuel)

def Walks (g : Geometry) (disk : Nat → Sector) (slots left : Nat) (p : Progressed) (x : Call Progressed) : Prop :=
  ∀ n, Tally p.report n → n + slots * (unmarked g p.marks).card + left < 2 ^ 32 →
    Reads g disk x fun p' => ∃ n', Tally p'.report n' ∧
      n' + slots * (unmarked g p'.marks).card ≤ n + slots * (unmarked g p.marks).card + left

include sound harmless mapped bounded enough

theorem walks_fsckLoop {descend : Option (Nat → Progressed → Call Progressed)}
    (below : ∀ f, descend = some f → ∀ depth dir p, DirAt g disk depth dir → Walks g disk slots slots p (f dir p))
    (at_ : DirAt g disk depth dir) {rounds cursor : Nat}
    (low : cursor ≤ 65536) (left : 65537 ≤ rounds + cursor) (p : Progressed) :
    Walks g disk slots (slots - cursor) p (fsckLoop g fuel false descend dir rounds cursor p) := by
  have clusters := sound.clusters
  induction rounds generalizing cursor p with
  | zero => omega
  | succ rounds ih =>
    intro n tally _
    apply reads_bind (reads_listNext sound (dirAt_held harmless at_) (by omega) (by omega))
    rintro ⟨_ | listed, _⟩ next
    · exact reads_pure ⟨n, tally, Nat.le_add_right _ _⟩
    obtain ⟨index, _, entry, rfl, _, lists, node⟩ := next
    have inside := slotAt_lt sound lists.slot
    have counted : index < slots := by
      by_contra far
      have gone := bounded depth dir index at_ (by omega)
      rw [lists.slot] at gone
      cases gone
    have used : listed.node.isDirectory = true → 2 ≤ listed.node.firstCluster →
        g.Holds listed.node.firstCluster ∧ entryAt g disk listed.node.firstCluster ≠ 0 := by
      rw [node]
      intro directory named
      have some : headOf g entry ≠ 0 := fun zero => by
        have : 2 ≤ headOf g entry := named
        omega
      exact ⟨(harmless.heads at_ lists).resolve_left some, harmless.allocated at_ lists directory some⟩
    apply reads_bind (reads_fsckEntry sound mapped tally (by omega) (by omega) used)
    rintro ⟨result, q⟩ ⟨counts, fewer, goes⟩
    have less : slots * (unmarked g q.marks).card ≤ slots * (unmarked g p.marks).card := Nat.mul_le_mul_left _ fewer
    -- what the entry's directory may count is paid for by the cluster marked for it
    apply @reads_bind _ _ _ _ (fun q' => ∃ n', Tally q'.report n' ∧
      n' + slots * (unmarked g q'.marks).card ≤ n + 1 + slots * (unmarked g p.marks).card)
    · cases descend with
      | none => exact reads_pure ⟨n + 1, counts, by omega⟩
      | some f =>
        cases result with
        | none => exact reads_pure ⟨n + 1, counts, by omega⟩
        | some node' =>
          obtain ⟨rfl, fewer'⟩ := goes node' rfl
          apply reads_ite
          · rintro ⟨directory, named⟩
            have strict := fewer' directory named
            have paid : slots * (unmarked g q.marks).card + slots ≤ slots * (unmarked g p.marks).card := by
              exact Nat.mul_le_mul_left _ strict
            have child : DirAt g disk (depth + 1) listed.node.firstCluster := by
              rw [node] at directory ⊢
              exact DirAt.child at_ lists directory
            apply reads_mono (below f rfl _ _ q child (n + 1) counts (by omega))
            rintro q' ⟨n', counts', le⟩
            exact ⟨n', counts', by omega⟩
          · exact fun _ => reads_pure ⟨n + 1, counts, by omega⟩
    · rintro q' ⟨n', counts', le⟩
      apply reads_mono (ih (by omega) (by omega) q' n' counts' (by omega))
      rintro _ ⟨m, counts'', _⟩
      exact ⟨m, counts'', by omega⟩

theorem walks_fsckDirectory (levels : Nat) (at_ : DirAt g disk depth dir) (p : Progressed) :
    Walks g disk slots slots p (fsckDirectory g fuel false levels dir p) := by
  induction levels generalizing depth dir p with
  | zero =>
    apply walks_fsckLoop sound harmless mapped bounded enough _ at_ (Nat.zero_le _) (by omega) p
    simp
  | succ levels ih =>
    apply walks_fsckLoop sound harmless mapped bounded enough _ at_ (Nat.zero_le _) (by omega) p
    rintro f same _ _ p' below
    cases same
    exact ih below p'

end

open Lib.Run
variable {start : Nat} {boot : Sector}

theorem powerOfTwo_bounds : ∀ n : Fin 256, Fat.isPowerOfTwo n = true → 0 < n.val ∧ n.val ≤ 128 := by decide +kernel

theorem totalSectorsOf_lt (boot : Sector) : totalSectorsOf boot < 2 ^ 32 := by
  have short := le16_lt boot 19
  have long := le32_lt boot 32
  unfold totalSectorsOf
  split_ifs <;> omega

theorem reads_layOut {rootStart dataStart : Nat} {slotFree : Bool} (free : slotFree = true)
    (low : start < 2 ^ 32) (ok : supported boot = true) (ordered : rootStart ≤ dataStart) :
    Reads g disk (layOut boot start rootStart dataStart slotFree) (fun g =>
      dataStart < 2 ^ 31 → (totalSectorsOf boot - dataStart) / (boot.byte 13).toNat + 2 ≤ 2 ^ 30 →
        (g.fatType = .fat32 → g.Holds g.rootCluster) → Sound g) := by
  have powers := ok
  simp only [supported, Bool.and_eq_true] at powers
  obtain ⟨positive, small⟩ := powerOfTwo_bounds ⟨_, (boot.byte 13).toNat_lt⟩ powers.1.1.1.2
  have total := totalSectorsOf_lt boot
  have entries := le16_lt boot 17
  have reserved := le16_lt boot 14
  apply reads_ite (fun _ => reads_fail _)
  intro _
  apply reads_ite (fun _ => reads_fail _)
  intro _
  apply reads_ite
  · intro full
    simp [free] at full
  intro _
  apply reads_ite (fun _ => reads_fail _)
  intro _
  apply reads_pure
  intro below few held
  have used := Nat.div_mul_le_self (totalSectorsOf boot - dataStart) (boot.byte 13).toNat
  refine ⟨low, few, reserved, positive, small, ?_, ?_, ?_, held⟩
  · simp only [geometryOf]
    omega
  · simp only [geometryOf]
    omega
  · simp only [geometryOf, rootSectorsOf]
    omega

theorem reads_mount (low : start < 2 ^ 32) (fits : dataStartOf (disk start) < 2 ^ 32) :
    Reads g disk (mount start true) (fun g =>
      Moderate (disk start) → (g.fatType = .fat32 → g.Holds g.rootCluster) → Sound g) := by
  unfold dataStartOf at fits
  apply reads_bind reads_answer
  intro _ _
  apply reads_bind reads_get
  rintro v ⟨rfl, _⟩
  apply reads_ite (fun _ => reads_fail _)
  intro _
  apply reads_ite (fun _ => reads_fail _)
  intro ok
  apply reads_value (reads_u32 (by omega))
  apply reads_value (reads_u32 (by omega))
  apply reads_value (reads_u32 (by omega))
  apply reads_mono (reads_layOut rfl low (by simpa using ok) (Nat.le_add_right _ _))
  exact fun _ sound moderate held => sound moderate.1 moderate.2 held

theorem volumeStart_lt {sector : Sector} (h : volumeStart sector = some start) : start < 2 ^ 32 := by
  unfold volumeStart at h
  split_ifs at h
  · cases h
    decide
  obtain ⟨_, _, found⟩ := List.exists_of_findSome?_eq_some h
  simp only at found
  split_ifs at found
  cases found
  exact le32_lt _ _

section
variable (sound : Sound g) (harmless : Harmless g disk) {fuel : Nat} (enough : 2 ^ 32 < fuel)
include sound

theorem reads_fsckRoot (mapped : g.clusters + 2 ≤ fsckMapBytes * 8) (enough : 2 ^ 32 < fuel) :
    Reads g disk (fsckRoot g fuel false) (fun result =>
      result.1 = (root g).firstCluster ∧ Tally result.2.report 0) := by
  have clusters := sound.clusters
  have none : Tally {} 0 := by constructor <;> simp
  unfold fsckRoot root
  cases g.fatType with
  | fat16 => exact reads_pure ⟨rfl, none⟩
  | fat32 =>
    have bound := @card_unmarked_le g fun _ => false
    apply reads_bind (reads_fsckChain sound mapped (by omega) (by omega))
    intro result _
    apply reads_ite
    · rintro ⟨_, repair⟩
      cases repair
    · exact fun _ => reads_pure ⟨rfl, none⟩

include harmless enough

theorem reads_fsck : Reads g disk (fsck g fuel false) (fun _ => True) := by
  obtain ⟨slots, _, bounded⟩ := harmless.counts
  have clusters := sound.clusters
  apply reads_ite (fun _ => reads_fail _)
  intro _
  apply reads_bind (reads_fsckRoot sound (by omega) enough)
  rintro ⟨_, p⟩ ⟨rfl, tally⟩
  have budget : 0 + slots * (unmarked g p.marks).card + slots < 2 ^ 32 := by
    have bound := Nat.mul_le_mul_left slots (@card_unmarked_le g p.marks)
    have split : (g.clusters + 3) * slots = slots * (g.clusters + 2) + slots := by
      rw [Nat.mul_comm, ← Nat.mul_succ]
    omega
  apply reads_bind (walks_fsckDirectory sound harmless (by omega) bounded enough 8 DirAt.root p 0 tally budget)
  rintro q ⟨n, counts, _⟩
  apply reads_value (reads_limit sound)
  apply reads_bind (reads_freeOrphans sound _ ?_ ?_)
  · intro r _
    exact reads_pure trivial
  · intro _ member
    rw [List.mem_range'_1] at member
    omega
  · rw [counts.orphans, List.length_range']
    omega

theorem reads_serve {nodes : List Node} (known : ∀ node ∈ nodes, Known g disk node) (request : Request) :
    Reads g disk (serve g fuel nodes request) (fun nodes => ∀ node ∈ nodes, Known g disk node) := by
  cases request with
  | resolve _ =>
    apply reads_bind (reads_resolveFrom sound harmless (by omega) _
      ⟨dirAt_held harmless .root, .inl rfl, by simp [root], fun _ => ⟨0, .root⟩⟩)
    intro node here
    apply reads_pure
    intro other member
    rcases List.mem_append.mp member with before | last
    · exact known other before
    rw [List.mem_singleton.mp last]
    exact here
  | list handle cursor _ =>
    cases place : nodes[handle]? with
    | none => simpa [serve, place] using reads_pure known
    | some node =>
      have here := known node (List.mem_of_getElem? place)
      simp only [serve, place]
      apply reads_ite
      · intro directory
        obtain ⟨_, at_⟩ := here.directory directory
        exact reads_listMany sound harmless (by omega) at_ cursor.toNat_lt known
      · exact fun _ => reads_pure known
  | read handle _ _ =>
    cases place : nodes[handle]? with
    | none => simpa [serve, place] using reads_pure known
    | some node =>
      simp only [serve, place]
      apply reads_bind (reads_readAt sound (known node (List.mem_of_getElem? place)) enough)
      rintro ⟨_, _⟩ here
      apply reads_pure
      intro other member
      rcases List.mem_or_eq_of_mem_set member with before | rfl
      · exact known other before
      · exact here
  | info =>
    apply reads_bind (reads_info sound)
    exact fun _ _ => reads_pure known
  | fsck =>
    apply reads_bind (reads_fsck sound harmless enough)
    exact fun _ _ => reads_pure known

end

theorem answered_of_reads {α : Type} {x : Call α} {R : α → Prop} {v : Volume} (h : Reads g v.disk x R)
    (cursor : Cursor g v) : Answered x v := by
  intro _ stopped
  obtain ⟨a, v', run, read⟩ | ⟨e, v', run, read⟩ := run_of_wp (h v rfl cursor)
  · rw [run] at stopped
    cases stopped
  rw [run] at stopped
  cases stopped
  exact read.2.2

structure Attended (g : Geometry) (disk : Nat → Sector) (s : Session) : Prop where
  same : s.volume.disk = disk
  cursor : Cursor g s.volume
  known : ∀ node ∈ s.nodes, Known g disk node

theorem attended_attend (sound : Sound g) (harmless : Harmless g disk) {fuel : Nat} (enough : 2 ^ 32 < fuel)
    (s : Session) (request : Request) (h : Attended g disk s) : Attended g disk (attend g fuel s request) := by
  unfold attend
  obtain ⟨_, v', run, served⟩ | ⟨e, v', run, served⟩ :=
    run_of_wp (reads_serve sound harmless enough h.known request s.volume h.same h.cursor)
  · rw [run]
    exact ⟨served.1, served.2.1, served.2.2⟩
  · rw [run]
    exact ⟨served.1, served.2.1, h.known⟩

theorem wp_u32 {ok : Nat → Volume → Prop} {err : Stop → Volume → Prop} {v : Volume} :
    wp (u32 n) ok err v ↔ if n < 2 ^ 32 then ok n v else err .panic v := by
  unfold u32
  split <;> rfl

theorem answered_iff {α : Type} {x : Call α} {v : Volume} :
    Answered x v ↔ wp x (fun _ _ => True) (fun stop _ => Benign stop) v := by
  unfold Answered wp
  rcases x v with ⟨_ | _, _⟩ <;> simp

-- one of the three sums that lead to the data area is too large exactly when the last one is
theorem mount_panics {v : Volume} (done : v.answers v.turn = true) (ok : supported (v.disk start) = true)
    (large : 2 ^ 32 ≤ dataStartOf (v.disk start)) : ¬ Answered (mount start true) v := by
  unfold dataStartOf at large
  rw [answered_iff]
  simp only [mount, answer, wp_bind, wp_get, wp_modify, wp_pure, done, ok, Bool.not_true, Bool.false_eq_true,
    if_false, wp_u32]
  split_ifs
  · omega
  · exact id
  · exact id
  · exact id

theorem mount_answered_iff (low : start < 2 ^ 32) {v : Volume} (fresh : v.dirCursor = none) :
    Answered (mount start true) v ↔
      (v.answers v.turn = true → supported (v.disk start) = true → dataStartOf (v.disk start) < 2 ^ 32) := by
  constructor
  · intro answered done ok
    by_contra large
    exact mount_panics done ok (Nat.le_of_not_lt large) answered
  intro fits
  by_cases read : v.answers v.turn = true ∧ supported (v.disk start) = true
  · refine @answered_of_reads ⟨0, .fat16, 0, 0, 0, 0, [], 0, 0, 0, 0, 0⟩ _ _ _ v
      (reads_mount low (fits read.1 read.2)) ?_
    intro _ _ _ remembered
    rw [fresh] at remembered
    cases remembered
  rw [answered_iff]
  simp only [mount, answer, wp_bind, wp_get, wp_modify, wp_pure]
  cases done : v.answers v.turn with
  | false => trivial
  | true =>
    cases ok : supported (v.disk start) with
    | false => trivial
    | true => exact absurd ⟨done, ok⟩ read

/-- Mounting ends with a result or an error exactly when the sectors before the data area can be counted
in 32 bits. If the boot sector is moderate and the directories are harmless, so does every call of every
later run. -/
theorem hostile_media_answered (disk : Nat → Sector) (answers : Nat → Bool) (start fuel : Nat) (requests : List Request)
    (found : volumeStart (disk 0) = some start) (enough : 2 ^ 32 < fuel) :
    (Answered (mount start true) { disk := disk, answers := answers } ↔
      (answers 0 = true → supported (disk start) = true → dataStartOf (disk start) < 2 ^ 32)) ∧
    ∀ g v, mount start true { disk := disk, answers := answers } = (.ok g, v) →
      Moderate (disk start) → Harmless g disk →
      Along (attend g fuel) (fun s request => Answered (serve g fuel s.nodes request) s.volume) ⟨v, []⟩ requests := by
  have low := volumeStart_lt found
  refine ⟨mount_answered_iff low rfl, fun g v mounted moderate safe => ?_⟩
  have fits : dataStartOf (disk start) < 2 ^ 32 := lt_trans moderate.1 (by decide)
  have fresh : Cursor g { disk := disk, answers := answers } := fun _ _ _ remembered => by cases remembered
  have after := @reads_mount g disk start low fits { disk := disk, answers := answers } rfl fresh
  unfold wp at after
  rw [mounted] at after
  obtain ⟨same, cursor, geometry⟩ := after
  have sound : Sound g := geometry moderate safe.root_held
  apply along_of_inv (fun s request h => attended_attend sound safe enough s request h)
  · intro s request h
    have served := reads_serve sound safe enough h.known request
    rw [← h.same] at served
    exact answered_of_reads served h.cursor
  · exact ⟨same, cursor, by simp⟩

def bootOf (fields : List (Nat × List UInt8)) : Sector :=
  fields.foldl (fun boot field => boot.put field.1 field.2) Buffer.zero

def mediumOf (boot : Sector) : Nat → Sector := fun lba => if lba = 0 then boot else Buffer.zero

def hugeBoot : Sector :=
  bootOf [(11, [0, 2]), (13, [1]), (14, [1, 0]), (16, [2]), (36, [0, 0, 0, 0x80]), (510, [0x55, 0xaa])]

/-- The size of the FATs is multiplied in 32 bits before it is compared with anything. -/
theorem huge_fats_panic : volumeStart (mediumOf hugeBoot 0) = some 0 ∧
    (mount 0 true { disk := mediumOf hugeBoot, answers := fun _ => true }).1 = .error .panic := by
  decide +kernel

def plainBoot : Sector :=
  bootOf [(11, [0, 2]), (13, [1]), (14, [1, 0]), (16, [1]), (17, [16, 0]), (19, [0x07, 0x10]), (22, [16, 0]),
    (510, [0x55, 0xaa])]

def plainGeometry : Geometry where
  start := 0
  fatType := .fat16
  sectorsPerCluster := 1
  reserved := 1
  fatCount := 1
  fatSectors := 16
  label := List.replicate 11 0
  rootCluster := 0
  rootStart := 17
  rootSectors := 1
  dataStart := 18
  clusters := 4085

def entrySector (attributes : UInt8) (first size : Nat) : Sector :=
  (((Buffer.zero : Sector).put 0 (0x41 :: List.replicate 10 0x20 ++ [attributes])).put 26 (leBytes 2 first)).put 28
    (leBytes 4 size)

/-- The root directory has a directory (cluster 2), and this one a file of 600 bytes (clusters 3 and 4). -/
def treeDisk : Nat → Sector := fun lba =>
  if lba = 0 then plainBoot
  else if lba = 1 then (Buffer.zero : Sector).put 4 [0xff, 0xff, 4, 0, 0xff, 0xff]
  else if lba = 17 then entrySector attrDirectory 2 0
  else if lba = 18 then entrySector attrArchive 3 600
  else Buffer.zero

def treeVolume : Volume := { disk := treeDisk, answers := fun _ => true }

instance (entry : Entry) : Decidable (Shown entry) := inferInstanceAs (Decidable (_ ∧ _ ∧ _ ∧ _ ∧ _))

theorem tree_mounts : (mount 0 true treeVolume).1 = .ok plainGeometry := by decide +kernel

theorem tree_linkOf : linkOf plainGeometry treeDisk 2 = none := by decide +kernel

theorem tree_sectorOf {k sector : Nat} (known : dir = 0 ∨ dir = 2)
    (place : sectorOf plainGeometry treeDisk dir k = some sector) : k = 0 ∧ sector = if dir = 0 then 17 else 18 := by
  rcases known with rfl | rfl
  · have inside : k = 0 ∧ 17 + k = sector := by simpa [sectorOf, plainGeometry] using place
    rw [if_pos rfl]
    omega
  cases k with
  | zero =>
    cases place
    exact ⟨rfl, rfl⟩
  | succ k =>
    have step : (k + 1) / plainGeometry.sectorsPerCluster = k + 1 := Nat.div_one _
    simp [sectorOf, step, hop, tree_linkOf] at place

theorem tree_slotAt {index : Nat} {entry : Entry} (known : dir = 0 ∨ dir = 2)
    (slot : slotAt plainGeometry treeDisk dir index = some entry) :
    index < 16 ∧ entry = entryOf (treeDisk (if dir = 0 then 17 else 18)) index := by
  obtain ⟨sector, place, rfl⟩ := Option.map_eq_some_iff.mp slot
  obtain ⟨first, rfl⟩ := tree_sectorOf known place
  have inside : index < 16 := by omega
  rw [Nat.mod_eq_of_lt inside, plainGeometry, Nat.zero_add]
  exact ⟨inside, rfl⟩

theorem tree_shown : ∀ index < 16,
    (Shown (entryOf (treeDisk 17) index) → headOf plainGeometry (entryOf (treeDisk 17) index) = 2) ∧
    (Shown (entryOf (treeDisk 18) index) → headOf plainGeometry (entryOf (treeDisk 18) index) = 3 ∧
      namesDirectory (entryOf (treeDisk 18) index) = false) := by decide +kernel

theorem tree_lists {index : Nat} {entry : Entry} (known : dir = 0 ∨ dir = 2)
    (lists : Lists plainGeometry treeDisk dir index entry) :
    headOf plainGeometry entry = 2 ∨ headOf plainGeometry entry = 3 ∧ namesDirectory entry = false := by
  obtain ⟨inside, rfl⟩ := tree_slotAt known lists.slot
  rcases known with rfl | rfl
  · exact .inl ((tree_shown index inside).1 lists.shown)
  · exact .inr ((tree_shown index inside).2 lists.shown)

theorem tree_dirAt (at_ : DirAt plainGeometry treeDisk depth dir) : dir = 0 ∨ dir = 2 := by
  induction at_ with
  | root => exact .inl rfl
  | child _ lists directory ih =>
    rcases tree_lists ih lists with head | ⟨_, file⟩
    · exact .inr head
    · rw [file] at directory
      cases directory

theorem tree_harmless : Harmless plainGeometry treeDisk where
  root_held type := by cases type
  heads at_ lists := by
    rcases tree_lists (tree_dirAt at_) lists with head | ⟨head, _⟩
    · rw [head]
      exact .inr (by decide)
    · rw [head]
      exact .inr (by decide)
  allocated at_ lists directory _ := by
    rcases tree_lists (tree_dirAt at_) lists with head | ⟨_, file⟩
    · rw [head]
      decide +kernel
    · rw [file] at directory
      cases directory
  counts := by
    refine ⟨16, by decide, ?_⟩
    intro _ dir index at_ past
    by_contra some
    obtain ⟨entry, slot⟩ := Option.ne_none_iff_exists'.mp some
    have := (tree_slotAt (tree_dirAt at_) slot).1
    omega

def treeRequests : List Request := [.resolve [], .list 0 0 1, .list 1 0 1, .read 2 0 600, .list 0 5 1, .info, .fsck]

theorem tree_nodes : (final (attend plainGeometry (2 ^ 32 + 1)) ⟨(mount 0 true treeVolume).2, []⟩
    (treeRequests.take 5)).nodes.map (·.firstCluster) = [0, 2, 3] := by decide +kernel

/-- The run lists the directory and its file and reads this one through. -/
theorem tree_answered :
    (final (attend plainGeometry (2 ^ 32 + 1)) ⟨(mount 0 true treeVolume).2, []⟩ (treeRequests.take 5)).nodes.map
      (·.firstCluster) = [0, 2, 3] ∧
    Along (attend plainGeometry (2 ^ 32 + 1))
      (fun s request => Answered (serve plainGeometry (2 ^ 32 + 1) s.nodes request) s.volume)
      ⟨(mount 0 true treeVolume).2, []⟩ treeRequests := by
  refine ⟨tree_nodes, ?_⟩
  have found : volumeStart (treeDisk 0) = some 0 := by decide +kernel
  have moderate : Moderate (treeDisk 0) := ⟨by decide +kernel, by decide +kernel⟩
  have mounted : mount 0 true treeVolume = (.ok plainGeometry, (mount 0 true treeVolume).2) := by rw [← tree_mounts]
  obtain ⟨_, runs⟩ := hostile_media_answered treeDisk (fun _ => true) 0 (2 ^ 32 + 1) treeRequests found
    (Nat.lt_succ_self _)
  exact runs plainGeometry (mount 0 true treeVolume).2 mounted moderate tree_harmless

end AerOS.Proof.Fat
