import AerOS.Spec.Fat

namespace AerOS.Proof.Fat
open Lib Lib.Action AerOS.Fat

variable {α β : Type} {g : Geometry} {disk : Nat → Sector}
variable {cluster dir index n relative : Nat}
variable {x : Call α} {i k : Nat}

def Reads (g : Geometry) (disk : Nat → Sector) (x : Call α) (R : α → Prop) : Prop :=
  ∀ v, v.disk = disk → Cursor g v →
    wp x (fun a v' => v'.disk = disk ∧ Cursor g v' ∧ R a) (fun e v' => v'.disk = disk ∧ Cursor g v' ∧ Benign e) v

section rules
variable {R S : α → Prop} {T : β → Prop}

theorem reads_pure {a : α} (h : R a) : Reads g disk (pure a) R := fun _ same cursor => ⟨same, cursor, h⟩

theorem reads_fail (e : FsError) : Reads g disk (fail e : Call α) R :=
  fun _ same cursor => ⟨same, cursor, trivial⟩

theorem reads_bind {x : Call α} {f : α → Call β} (hx : Reads g disk x R)
    (hf : ∀ a, R a → Reads g disk (f a) T) : Reads g disk (x >>= f) T := by
  intro v same cursor
  rw [wp_bind]
  apply wp_mono (hx v same cursor)
  · rintro a v' ⟨same', cursor', h⟩
    exact hf a h v' same' cursor'
  · exact fun _ _ h => h

theorem reads_value {f : α → Call β} {value : α} (hx : Reads g disk x fun a => a = value)
    (hf : Reads g disk (f value) T) : Reads g disk (x >>= f) T := by
  apply reads_bind hx
  rintro _ rfl
  exact hf

theorem reads_mono (hx : Reads g disk x R) (h : ∀ a, R a → S a) : Reads g disk x S := by
  intro v same cursor
  apply wp_mono (hx v same cursor)
  · exact fun a v' ⟨same', cursor', ha⟩ => ⟨same', cursor', h a ha⟩
  · exact fun _ _ h => h

theorem reads_ite {c : Prop} [Decidable c] {y : Call α} (hx : c → Reads g disk x R) (hy : ¬ c → Reads g disk y R) :
    Reads g disk (if c then x else y) R := by
  split
  · exact hx ‹_›
  · exact hy ‹_›

theorem reads_u32 (h : n < 2 ^ 32) : Reads g disk (u32 n) (· = n) := by
  unfold u32
  rw [if_pos h]
  exact reads_pure rfl

theorem reads_u64 (h : n < 2 ^ 64) : Reads g disk (u64 n) (· = n) := by
  unfold u64
  rw [if_pos h]
  exact reads_pure rfl

theorem reads_less {a b : Nat} (h : b ≤ a) : Reads g disk (less a b) (· = a - b) := by
  rw [less, if_pos h]
  exact reads_pure rfl

theorem reads_within (h : i < n) : Reads g disk (within i n) (fun _ => True) := by
  rw [within, if_pos h]
  exact reads_pure trivial

theorem reads_answer : Reads g disk answer (fun _ => True) := fun _ same cursor => ⟨same, cursor, trivial⟩

theorem reads_get : Reads g disk (get : Call Volume) (fun v => v.disk = disk ∧ Cursor g v) :=
  fun _ same cursor => ⟨same, cursor, same, cursor⟩

end rules

theorem perEntry_cases (g : Geometry) : g.perEntry = 2 ∨ g.perEntry = 4 := by
  cases h : g.fatType <;> simp [Geometry.perEntry, h]

section
variable (sound : Sound g)
include sound

theorem reads_absolute (h : relative < 2 ^ 32) :
    Reads g disk (absolute g relative) (· = g.start + relative) := by
  have := sound.start
  exact reads_u64 (by omega)

theorem reads_readSector (h : relative < 2 ^ 32) :
    Reads g disk (readSector g relative) (· = disk (g.start + relative)) := by
  apply reads_value (reads_absolute sound h)
  apply reads_bind reads_answer
  intro _ _
  apply reads_bind reads_get
  rintro v ⟨rfl, _⟩
  exact reads_ite (fun _ => reads_pure rfl) (fun _ => reads_fail _)

theorem reads_limit : Reads g disk (limit g) (· = g.clusters + 2) := by
  have := sound.clusters
  exact reads_u32 (by omega)

theorem reads_clusterLba (held : g.Holds cluster) : Reads g disk (clusterLba g cluster)
      (fun lba => lba = g.dataStart + (cluster - 2) * g.sectorsPerCluster ∧ lba + g.sectorsPerCluster < 2 ^ 32) := by
  have fits := sound.fits
  obtain ⟨low, _⟩ := held
  have inside : (cluster - 2) * g.sectorsPerCluster + g.sectorsPerCluster ≤ g.clusters * g.sectorsPerCluster := by
    rw [← Nat.succ_mul]
    exact Nat.mul_le_mul_right _ (by omega)
  apply reads_value (reads_less low)
  apply reads_value (reads_u32 (by omega))
  apply reads_mono (reads_u32 (by omega))
  rintro _ rfl
  exact ⟨rfl, by omega⟩

theorem reads_clusterBytes : Reads g disk (clusterBytes g) (· = g.sectorsPerCluster * 512) := by
  have := sound.small
  exact reads_u32 (by omega)

theorem reads_fatGet (cluster : Nat) :
    Reads g disk (fatGet g cluster) (fun value => g.Holds cluster ∧ value = entryAt g disk cluster) := by
  have clusters := sound.clusters
  have reserved := sound.reserved
  apply reads_ite (fun _ => reads_fail _)
  intro _
  apply reads_value (reads_limit sound)
  apply reads_ite (fun _ => reads_fail _)
  intro _
  have small : cluster * g.perEntry < 2 ^ 32 := by
    rcases perEntry_cases g with two | four
    · rw [two]; omega
    · rw [four]; omega
  apply reads_value (reads_u32 small)
  apply reads_value (reads_u32 (by omega))
  apply reads_value (reads_readSector sound (by omega))
  have inside : cluster * g.perEntry % 512 + (g.perEntry - 1) < 512 := by
    rcases perEntry_cases g with two | four
    · rw [two]; omega
    · rw [four]; omega
  apply reads_bind (reads_within inside)
  rintro _ _
  exact reads_pure ⟨⟨by omega, by omega⟩, rfl⟩

theorem reads_nextCluster (cluster : Nat) :
    Reads g disk (nextCluster g cluster) (fun next => next = linkOf g disk cluster) := by
  apply reads_bind (reads_fatGet sound cluster)
  rintro _ ⟨_, rfl⟩
  apply reads_ite
  · intro _
    exact reads_pure (by rw [linkOf, if_pos (by tauto)])
  intro on
  apply reads_value (reads_limit sound)
  apply reads_ite (fun _ => reads_fail _)
  intro _
  exact reads_pure (by rw [linkOf, if_neg (by tauto)])

theorem reads_walk (hops cluster : Nat) :
    Reads g disk (walk g hops cluster) (fun reached => reached = hop g disk hops cluster) := by
  induction hops generalizing cluster with
  | zero => exact reads_pure rfl
  | succ hops ih =>
    apply reads_value (reads_nextCluster sound cluster)
    cases link : linkOf g disk cluster with
    | none => exact reads_pure (by simp [hop, link])
    | some next => exact reads_mono (ih next) fun _ h => by simp [hop, link, h]

end

theorem linkOf_holds {next : Nat} (h : linkOf g disk cluster = some next) : g.Holds next := by
  simp only [linkOf] at h
  split_ifs at h with stop
  cases h
  exact ⟨by omega, by omega⟩

theorem hop_add (a b cluster : Nat) : hop g disk (a + b) cluster = (hop g disk a cluster).bind (hop g disk b) := by
  induction a generalizing cluster with
  | zero => simp [hop]
  | succ a ih =>
    rw [Nat.succ_add, hop, hop]
    cases linkOf g disk cluster with
    | none => rfl
    | some next => exact ih next

theorem hop_holds {hops reached : Nat} (held : g.Holds cluster) (h : hop g disk hops cluster = some reached) :
    g.Holds reached := by
  induction hops generalizing cluster with
  | zero =>
    cases h
    exact held
  | succ hops ih =>
    obtain ⟨_, link, rest⟩ := Option.bind_eq_some_iff.mp h
    exact ih (linkOf_holds link) rest

theorem resume_hop {v : Volume} (cursor : Cursor g v) (dir hops : Nat) :
    hop g v.disk (hops - (resume v.dirCursor dir hops).2) (resume v.dirCursor dir hops).1 = hop g v.disk hops dir := by
  cases remembered : v.dirCursor with
  | none => simp [resume]
  | some _ =>
    have reached := (cursor _ _ _ remembered).2
    simp only [resume]
    split_ifs with usable
    · obtain ⟨rfl, le⟩ := usable
      conv_rhs => rw [← Nat.add_sub_cancel' le, hop_add, reached]
      rfl
    · rfl

section
variable (sound : Sound g)
include sound

theorem reads_chainSector (held : g.Holds dir) : Reads g disk (chainSector g dir k) (fun sector =>
      sector = (hop g disk (k / g.sectorsPerCluster) dir).map (fun cluster =>
        g.dataStart + (cluster - 2) * g.sectorsPerCluster + k % g.sectorsPerCluster) ∧
      ∀ n, sector = some n → n < 2 ^ 32) := by
  apply reads_bind reads_get
  rintro v ⟨rfl, cursor⟩
  have walked : Reads g v.disk (walk g (k / g.sectorsPerCluster - (resume v.dirCursor dir (k / g.sectorsPerCluster)).2)
      (resume v.dirCursor dir (k / g.sectorsPerCluster)).1) _ := reads_walk sound _ _
  rw [resume_hop cursor] at walked
  apply reads_value walked
  cases reached : hop g v.disk (k / g.sectorsPerCluster) dir with
  | none => exact reads_pure ⟨rfl, by simp⟩
  | some cluster =>
    have inside := Nat.mod_lt k sound.positive
    apply @reads_bind _ _ _ _ (fun _ => True)
    · intro w same _
      refine ⟨same, ?_, trivial⟩
      intro _ _ _ remembered
      cases remembered
      exact ⟨held, same ▸ reached⟩
    rintro _ _
    apply reads_bind (reads_clusterLba sound (hop_holds held reached))
    rintro _ ⟨rfl, _⟩
    apply reads_value (reads_u32 (by omega))
    refine reads_pure ⟨rfl, ?_⟩
    rintro n same
    cases same
    omega

theorem reads_dirSector (held : dir = 0 ∨ g.Holds dir) (small : k < 2 ^ 28) :
    Reads g disk (dirSector g dir k) (fun sector => sector = sectorOf g disk dir k ∧ ∀ n, sector = some n → n < 2 ^ 32) := by
  have low := sound.root_low
  unfold dirSector sectorOf
  split_ifs with zero inside past
  · apply reads_value (reads_u32 (by omega))
    refine reads_pure ⟨rfl, ?_⟩
    rintro n same
    cases same
    omega
  · apply reads_value (reads_u32 (by omega))
    exact reads_pure ⟨rfl, by simp⟩
  · exact reads_pure ⟨rfl, by simp⟩
  · exact reads_chainSector sound (held.resolve_left zero)

theorem reads_readEntry (held : dir = 0 ∨ g.Holds dir) (small : index < 2 ^ 32) :
    Reads g disk (readEntry g dir index) (· = slotAt g disk dir index) := by
  apply reads_bind (reads_dirSector sound held (by omega))
  rintro sector ⟨rfl, room⟩
  unfold slotAt
  cases place : sectorOf g disk dir (index / 16) with
  | none => exact reads_pure rfl
  | some sector =>
    apply reads_value (reads_readSector sound (room sector place))
    apply reads_bind (reads_within (by omega))
    rintro _ _
    exact reads_pure rfl

theorem slotAt_lt {entry : Entry} (h : slotAt g disk dir index = some entry) : index < 65536 := by
  obtain ⟨_, place, _⟩ := Option.map_eq_some_iff.mp h
  have := sound.root_small
  unfold sectorOf at place
  split_ifs at place with zero inside past
  · omega
  rw [maxDirectorySectors] at past
  omega

end

variable {entry : Entry} {long : LongName} {cursor fuel : Nat}

theorem gather_eq {sequence : Nat} (low : sequence ≤ 20) :
    ∃ long', gather long entry sequence = .skip long' ∧ long'.expected = long.expected := by
  have inside : ¬ 260 < (sequence - 1) * 13 + unitOffsets.length := by
    have : unitOffsets.length = 13 := rfl
    omega
  unfold gather
  rw [if_neg inside]
  exact ⟨_, rfl, rfl⟩

theorem longEntry_eq {long : LongName} {index : Nat} {entry : Entry} (low : long.expected ≤ 20) :
    ∃ long', longEntry long index entry = .skip long' ∧ long'.expected ≤ 20 := by
  simp only [longEntry]
  split_ifs with fresh stop stop
  · exact ⟨_, rfl, by simp⟩
  · simp only [not_or] at stop
    obtain ⟨long', eq, expected⟩ := gather_eq (Nat.le_of_not_lt stop.2.1)
    refine ⟨long', eq, ?_⟩
    rw [expected]
    exact Nat.le_of_not_lt stop.2.1
  · exact ⟨_, rfl, by simp⟩
  simp only [not_or] at stop
  obtain ⟨long', eq, expected⟩ := gather_eq (Nat.le_of_not_lt stop.2.1)
  refine ⟨long', eq, ?_⟩
  rw [expected]
  exact low

theorem shortEntry_eq (low : long.expected ≤ 20) :
    ∃ listed first, shortEntry g dir index long entry = .show listed ∧
      listed.node = nodeFromEntry g dir index first entry := by
  unfold shortEntry
  rw [if_neg (by omega)]
  split_ifs
  · exact ⟨_, _, rfl, rfl⟩
  · exact ⟨_, _, rfl, rfl⟩

theorem examine_cases {dir index : Nat} {long : LongName} (entry : Entry) (low : long.expected ≤ 20) :
    examine g dir index long entry = .finish ∨
    (∃ long', examine g dir index long entry = .skip long' ∧ long'.expected ≤ 20) ∨
    (Shown entry ∧ ∃ listed first, examine g dir index long entry = .show listed ∧
      listed.node = nodeFromEntry g dir index first entry) := by
  unfold examine
  split_ifs with last deleted named hidden
  · exact .inl rfl
  · exact .inr (.inl ⟨_, rfl, by simp⟩)
  · exact .inr (.inl (longEntry_eq low))
  · exact .inr (.inl ⟨_, rfl, by simp⟩)
  · simp only [not_or, not_not] at hidden
    have shown : Shown entry := ⟨last, deleted, by simpa using named, hidden.1, by simpa using hidden.2⟩
    exact .inr (.inr ⟨shown, shortEntry_eq low⟩)

def NextIs (g : Geometry) (disk : Nat → Sector) (dir cursor : Nat) : Option Listed × Nat → Prop
  | (none, _) => True
  | (some listed, past) => ∃ index first entry, past = index + 1 ∧ cursor ≤ index ∧
      Lists g disk dir index entry ∧ listed.node = nodeFromEntry g dir index first entry

section
variable (sound : Sound g)
include sound

-- a cursor past the last slot that a directory can have finds nothing there, in one round
theorem reads_listFrom (held : dir = 0 ∨ g.Holds dir) (low : long.expected ≤ 20) (reached : cursor ≤ index)
    (small : index < 2 ^ 32) (enough : 65537 ≤ fuel + min index 65536) :
    Reads g disk (listFrom g dir fuel long index) (NextIs g disk dir cursor) := by
  induction fuel generalizing index long with
  | zero => omega
  | succ fuel ih =>
    apply reads_value (reads_readEntry sound held small)
    cases slot : slotAt g disk dir index with
    | none => exact reads_pure trivial
    | some entry =>
      have inside := slotAt_lt sound slot
      apply reads_value (reads_u32 (by omega))
      rcases @examine_cases g dir index long entry low with
        eq | ⟨long', eq, low'⟩ | ⟨shown, listed, first, eq, node⟩
      · rw [eq]
        exact reads_pure trivial
      · rw [eq]
        exact ih low' (by omega) (by omega) (by omega)
      · rw [eq]
        exact reads_pure ⟨index, first, entry, rfl, reached, ⟨slot, shown⟩, node⟩

theorem reads_listNext (held : dir = 0 ∨ g.Holds dir) (small : cursor < 2 ^ 32) (enough : 65537 ≤ fuel) :
    Reads g disk (listNext g fuel dir cursor) (NextIs g disk dir cursor) :=
  reads_listFrom sound held (Nat.zero_le _) le_rfl small (by omega)

def Named (g : Geometry) (disk : Nat → Sector) (dir : Nat) (node : Node) : Prop :=
  ∃ index first entry, Lists g disk dir index entry ∧ node = nodeFromEntry g dir index first entry

theorem reads_findFrom {rounds : Nat} {name : List UInt8} (held : dir = 0 ∨ g.Holds dir)
    (low : cursor ≤ 65536) (enough : 65537 ≤ fuel) (left : 65537 ≤ rounds + cursor) :
    Reads g disk (findFrom g fuel dir name rounds cursor) (Named g disk dir) := by
  induction rounds generalizing cursor with
  | zero => omega
  | succ rounds ih =>
    apply reads_bind (reads_listNext sound held (by omega) enough)
    rintro ⟨_ | _, _⟩ next
    · exact reads_fail _
    obtain ⟨index, first, entry, rfl, _, lists, node⟩ := next
    have small := slotAt_lt sound lists.slot
    apply reads_ite
    · exact fun _ => reads_pure ⟨index, first, entry, lists, node⟩
    · exact fun _ => ih (by omega) (by omega)

end

variable {base depth offset span target want : Nat} {node : Node} {p : Progress}

structure Known (g : Geometry) (disk : Nat → Sector) (node : Node) : Prop where
  first : node.firstCluster = 0 ∨ g.Holds node.firstCluster
  position : node.cursorCluster = 0 ∨ g.Holds node.cursorCluster
  size : node.size < 2 ^ 32
  directory : node.isDirectory = true → ∃ depth, DirAt g disk depth node.firstCluster

theorem le16_lt {n : Nat} (b : Buffer n) (offset : Nat) : le16 b offset < 2 ^ 16 := by
  have := ofLe_lt (b.slice offset 2)
  rw [Buffer.length_slice] at this
  exact this

theorem le32_lt {n : Nat} (b : Buffer n) (offset : Nat) : le32 b offset < 2 ^ 32 := by
  have := ofLe_lt (b.slice offset 4)
  rw [Buffer.length_slice] at this
  exact this

section
variable (harmless : Harmless g disk)
include harmless

theorem dirAt_held (h : DirAt g disk depth dir) : dir = 0 ∨ g.Holds dir := by
  cases h with
  | root =>
    cases type : g.fatType with
    | fat16 => simp [root, type]
    | fat32 => simpa [root, type] using .inr (harmless.root_held type)
  | child below lists _ => exact harmless.heads below lists

theorem known_of_lists {first : Nat} {entry : Entry}
    (at_ : DirAt g disk depth dir) (lists : Lists g disk dir index entry) :
    Known g disk (nodeFromEntry g dir index first entry) where
  first := harmless.heads at_ lists
  position := .inl rfl
  size := le32_lt _ _
  directory named := ⟨depth + 1, DirAt.child at_ lists named⟩

end

section
variable (sound : Sound g) (harmless : Harmless g disk)
include sound

theorem reads_follow (steps cluster : Nat) :
    Reads g disk (follow g false steps cluster) (fun reached => reached = hop g disk steps cluster) := by
  have same : ∀ steps cluster, follow g false steps cluster = walk g steps cluster := by
    intro steps
    induction steps with
    | zero => exact fun _ => rfl
    | succ steps ih => simp [follow, walk, ih]
  rw [same]
  exact reads_walk sound steps cluster

theorem reads_advance (known : Known g disk node) (held : g.Holds cluster) :
    Reads g disk (advance g node index cluster target false)
      (fun result => Known g disk result.2 ∧ ∀ reached, result.1 = some reached → g.Holds reached) := by
  apply reads_value (reads_follow sound _ _)
  cases reached : hop g disk (target - index) cluster with
  | none => exact reads_pure ⟨known, by simp⟩
  | some _ =>
    have held' := hop_holds held reached
    refine reads_pure ⟨⟨known.first, .inr held', known.size, known.directory⟩, ?_⟩
    rintro _ same
    cases same
    exact held'

theorem reads_clusterAt (known : Known g disk node) : Reads g disk (clusterAt g node target false)
      (fun result => Known g disk result.2 ∧ ∀ reached, result.1 = some reached → g.Holds reached) := by
  apply reads_ite
  · intro remembered
    exact reads_advance sound known (known.position.resolve_left remembered.1)
  intro _
  apply reads_ite
  · intro some
    exact reads_advance sound known (known.first.resolve_left some)
  intro _
  exact reads_pure ⟨known, by simp⟩

def Queued (p : Progress) : Prop :=
  p.queue.length < 16 ∧ p.queued = (p.queue.map fun extent => extent.2 * 512).sum

omit sound in
theorem reads_flush (sum : p.queued = (p.queue.map fun extent => extent.2 * 512).sum) :
    Reads g disk (flush p) (fun p' => p'.done = p.done ∧ p'.queue = [] ∧ p'.queued = 0) := by
  apply reads_ite
  · intro empty
    exact reads_pure ⟨rfl, empty, by simpa [empty] using sum⟩
  intro _
  apply @reads_bind _ _ _ _ (fun bytes => bytes.length = p.queued)
  · apply reads_bind reads_answer
    intro done _
    apply reads_bind reads_get
    rintro v ⟨rfl, _⟩
    exact reads_ite (fun _ => reads_pure (by simp [List.length_flatMap, sum])) (fun _ => reads_fail _)
  · intro bytes length
    exact reads_pure ⟨by simp [Progress.done, length], rfl, rfl⟩

section
variable (queued : Queued p)
include queued

theorem reads_enqueue (low : base < 2 ^ 32) :
    Reads g disk (enqueue g p base span) (fun p' => Queued p' ∧ p'.done = p.done + span / 512 * 512) := by
  obtain ⟨room, sum⟩ := queued
  apply reads_bind (reads_within room)
  rintro _ _
  apply reads_value (reads_absolute sound low)
  apply reads_ite
  · intro _
    apply reads_mono (reads_flush (by simp [sum]))
    rintro p' ⟨done, empty, none⟩
    refine ⟨⟨by simp [empty], by simp [empty, none]⟩, ?_⟩
    rw [done]
    simp [Progress.done, Nat.add_assoc]
  intro more
  simp only [List.length_append, List.length_cons, List.length_nil] at more
  refine reads_pure ⟨⟨?_, by simp [sum]⟩, by simp [Progress.done, Nat.add_assoc]⟩
  simp only [List.length_append, List.length_cons, List.length_nil]
  omega

theorem reads_readPart {firstOffset : Nat} (low : base < 2 ^ 32) :
    Reads g disk (readPart g p base firstOffset span)
      (fun p' => Queued p' ∧ p'.done = p.done + min (512 - firstOffset) span) := by
  apply reads_bind (reads_flush queued.2)
  rintro p' ⟨done, empty, none⟩
  apply reads_value (reads_readSector sound low)
  refine reads_pure ⟨⟨by simp [empty], by simp [empty, none]⟩, ?_⟩
  rw [← done]
  simp [Progress.done, none]

theorem reads_readPiece {offsetIn : Nat} (held : g.Holds cluster)
    (inside : offsetIn < g.sectorsPerCluster * 512) (more : p.done < want) :
    Reads g disk (readPiece g p cluster offsetIn want (g.sectorsPerCluster * 512))
      (fun p' => Queued p' ∧ p.done < p'.done ∧ p'.done ≤ want) := by
  apply reads_bind (reads_clusterLba sound held)
  rintro _ ⟨rfl, _⟩
  apply reads_value (reads_u32 (by omega))
  apply reads_ite
  · intro _
    apply reads_mono (reads_enqueue sound queued (by omega))
    rintro p' ⟨queued', done⟩
    refine ⟨queued', ?_⟩
    omega
  intro _
  apply reads_mono (reads_readPart sound queued (by omega))
  rintro p' ⟨queued', done⟩
  refine ⟨queued', ?_⟩
  omega

end

theorem reads_readLoop (known : Known g disk node)
    (queued : Queued p) (small : offset + want < 2 ^ 64) (upto : p.done ≤ want) (enough : want < p.done + fuel) :
    Reads g disk (readLoop g offset want (g.sectorsPerCluster * 512) fuel node p)
      (fun result => Known g disk result.2) := by
  induction fuel generalizing node p with
  | zero => omega
  | succ fuel ih =>
    apply reads_ite
    · intro _
      apply reads_bind (reads_flush queued.2)
      intro p' _
      exact reads_pure known
    intro _
    apply reads_value (reads_u64 (by omega))
    apply reads_bind (reads_clusterAt sound known)
    rintro ⟨_ | cluster, _⟩ ⟨known', held⟩
    · exact reads_fail _
    have inside := Nat.mod_lt (offset + p.done) (Nat.mul_pos sound.positive (by decide : 0 < 512))
    apply reads_bind (reads_readPiece sound queued (held cluster rfl) inside (by omega))
    rintro p' ⟨queued', _, upto'⟩
    exact ih known' queued' upto' (by omega)

theorem reads_readAt {room : Nat} (known : Known g disk node) (enough : 2 ^ 32 < fuel) :
    Reads g disk (readAt g fuel node offset room) (fun result => Known g disk result.2) := by
  have size := known.size
  apply reads_ite (fun _ => reads_fail _)
  intro _
  apply reads_ite
  · exact fun _ => reads_pure known
  intro _
  apply reads_value (reads_clusterBytes sound)
  exact reads_readLoop sound known ⟨by simp, by simp⟩ (by omega) (Nat.zero_le _) (by omega)

include harmless

theorem reads_resolveFrom (enough : 65537 ≤ fuel) (components : List (List UInt8))
    (known : Known g disk node) : Reads g disk (resolveFrom g fuel components node) (Known g disk) := by
  induction components generalizing node with
  | nil => exact reads_pure known
  | cons _ _ ih =>
    apply reads_ite
    · exact fun _ => ih known
    intro _
    apply reads_ite (fun _ => reads_fail _)
    intro directory
    obtain ⟨_, at_⟩ := known.directory (by simpa using directory)
    apply reads_bind (reads_findFrom sound known.first (Nat.zero_le _) enough (by omega))
    rintro _ ⟨_, first, _, lists, rfl⟩
    exact ih (known_of_lists harmless at_ lists)

theorem reads_listMany (enough : 65537 ≤ fuel) {count cursor : Nat} {nodes : List Node}
    (at_ : DirAt g disk depth dir) (small : cursor < 2 ^ 32)
    (known : ∀ node ∈ nodes, Known g disk node) :
    Reads g disk (listMany g fuel dir count cursor nodes) (fun nodes => ∀ node ∈ nodes, Known g disk node) := by
  induction count generalizing cursor nodes with
  | zero => exact reads_pure known
  | succ count ih =>
    apply reads_bind (reads_listNext sound (dirAt_held harmless at_) small enough)
    rintro ⟨_ | _, _⟩ next
    · exact reads_pure known
    obtain ⟨_, _, _, rfl, _, lists, same⟩ := next
    have inside := slotAt_lt sound lists.slot
    apply ih (by omega)
    intro node member
    rcases List.mem_append.mp member with before | here
    · exact known node before
    rw [List.mem_singleton.mp here, same]
    exact known_of_lists harmless at_ lists

end

end AerOS.Proof.Fat
