import AerOS.Spec.Pkg
import Mathlib.Data.UInt

namespace AerOS.Proof.Pkg
open AerOS.Pkg List

variable {parts tail : Key} {left limit : Nat} {path : Text} {b : UInt8}
variable {a part : Text} {key : Key} {low high : UInt8} {entry : Entry}

theorem validUtf8_append {b : Text} (ha : validUtf8 a = true) (hb : ∀ c ∈ b, c < 0x80) :
    validUtf8 (a ++ b) = true := by
  have plain : b.foldl Utf8.step .between = .between := by
    induction b with
    | nil => rfl
    | cons c b ih =>
      have first : Utf8.step .between c = .between := by simp [Utf8.step, hb c (by simp)]
      rw [foldl_cons, first]
      exact ih fun d hd => hb d (by simp [hd])
  simp only [validUtf8, decide_eq_true_eq] at ha ⊢
  rw [foldl_append, ha, plain]

@[simp] theorem pathText_nil : pathText [] = [] := rfl

@[simp] theorem pathText_append (a b : Key) : pathText (a ++ b) = pathText a ++ pathText b := by simp [pathText]

theorem pathText_cons (part : Text) (key : Key) : pathText (part :: key) = slash :: part ++ pathText key := by
  simp [pathText]

theorem splitOn_pathText (h : ∀ part ∈ key, slash ∉ part) : (pathText key).splitOn slash = [] :: key := by
  induction key using reverseRecOn with
  | nil => rfl
  | append_singleton key part ih =>
    have whole := splitOn_eq_singleton (h part (by simp))
    have text : pathText (key ++ [part]) = pathText key ++ slash :: part := by simp [pathText]
    rw [text, splitOn_append_cons_self, ih fun p hp => h p (by simp [hp]), whole]
    rfl

theorem components_pathText (h : ∀ part ∈ key, Safe part) : components (pathText key) = key := by
  rw [components, splitOn_pathText fun part hp => (h part hp).2.2.2, filter_cons_of_neg (by simp)]
  exact filter_eq_self.mpr fun part hp => by simp [(h part hp).1, (h part hp).2.1]

theorem pathText_take_le (key : Key) (n : Nat) : (pathText (key.take n)).length ≤ (pathText key).length := by
  conv_rhs => rw [← take_append_drop n key, pathText_append, length_append]
  exact Nat.le_add_right _ _

structure Tail (tail : Key) : Prop where
  safe : ∀ part ∈ tail, Safe part
  ascii : ∀ part ∈ tail, ∀ b ∈ part, b < 0x80
  short : (pathText tail).length ≤ 144

theorem Tail.take (h : Tail tail) (n : Nat) : Tail (tail.take n) where
  safe part hp := h.safe part (mem_of_mem_take hp)
  ascii part hp := h.ascii part (mem_of_mem_take hp)
  short := (pathText_take_le tail n).trans h.short

theorem pathText_ascii (h : ∀ part ∈ tail, ∀ b ∈ part, b < 0x80) : ∀ b ∈ pathText tail, b < 0x80 := by
  intro b hb
  simp only [pathText, mem_flatMap, mem_cons] at hb
  obtain ⟨part, hp, rfl | inside⟩ := hb
  · decide
  · exact h part hp b inside

variable {root : Key}

theorem asStr_path (hroot : Root root) (h : Tail tail) :
    asStr pathBuffer (pathText (root ++ tail)) = pathText (root ++ tail) := by
  have length : (pathText (root ++ tail)).length ≤ pathBuffer := by
    have := hroot.short
    have := h.short
    rw [pathText_append, length_append]
    unfold pathBuffer
    omega
  have valid : validUtf8 (pathText (root ++ tail)) = true := by
    rw [pathText_append]
    exact validUtf8_append hroot.utf8 (pathText_ascii h.ascii)
  rw [asStr, take_of_length_le length, if_pos valid]

theorem safe_path (hroot : Root root) (h : Tail tail) : ∀ part ∈ root ++ tail, Safe part := by
  intro part hp
  rcases mem_append.mp hp with old | new
  · exact hroot.safe part old
  · exact h.safe part new

theorem components_path (hroot : Root root) (h : Tail tail) :
    components (pathText (root ++ tail)) = root ++ tail :=
  components_pathText (safe_path hroot h)

theorem foldl_broken (bytes : Text) : bytes.foldl Utf8.step .broken = .broken := by
  induction bytes with
  | nil => rfl
  | cons b bytes ih => exact ih

theorem step_low {s : Utf8} (h : s.step b = .within left low high) : 0x80 ≤ low := by
  cases s with
  | between =>
    simp only [Utf8.step] at h
    split_ifs at h <;> (simp only [Utf8.within.injEq] at h; rw [← h.2.1]; decide)
  | broken => simp [Utf8.step] at h
  | within waiting _ _ =>
    simp only [Utf8.step] at h
    split at h
    · cases waiting with
      | zero => simp at h
      | succ waiting =>
        simp only [Utf8.within.injEq] at h
        rw [← h.2.1]
        decide
    · simp at h

theorem foldl_low {bytes : Text}
    (h : bytes.foldl Utf8.step .between = .within left low high) : 0x80 ≤ low := by
  induction bytes using reverseRecOn with
  | nil => simp at h
  | append_singleton bytes b _ =>
    rw [foldl_append] at h
    exact step_low h

theorem validUtf8_before_slash {b : Text} (h : validUtf8 (a ++ slash :: b) = true) : validUtf8 a = true := by
  simp only [validUtf8, decide_eq_true_eq, foldl_append, foldl_cons] at h ⊢
  cases state : a.foldl Utf8.step .between with
  | between => rfl
  | broken => simp [state, Utf8.step, foldl_broken] at h
  | within _ low_ high =>
    have low := foldl_low state
    have outside : ¬ (low_ ≤ slash ∧ slash ≤ high) := fun h => absurd (UInt8.le_trans low h.1) (by decide)
    simp [state, Utf8.step, outside, foldl_broken] at h

theorem validUtf8_take (hroot : Root root) (n : Nat) : validUtf8 (pathText (root.take n)) = true := by
  rcases lt_or_ge n root.length with inside | beyond
  · have split : pathText root = pathText (root.take n) ++ slash :: (root[n] ++ pathText (root.drop (n + 1))) := by
      conv_lhs => rw [← take_append_drop n root, pathText_append, drop_eq_getElem_cons inside,
        pathText_cons]
      rfl
    exact validUtf8_before_slash (split ▸ hroot.utf8)
  · rw [take_of_length_le beyond]
    exact hroot.utf8

theorem constants : nameExtra = [45, 95] ∧ versionExtra = [46, 45, 95] ∧ text "." = [46] ∧ text ".." = [46, 46] ∧
    apps = [97, 112, 112, 115] ∧ db = [100, 98] ∧ text "MANIFEST" = [77, 65, 78, 73, 70, 69, 83, 84] ∧
    text "/apps/" = slash :: apps ++ [slash] ∧ text "/db" = slash :: db ∧ text "/db/" = slash :: db ++ [slash] ∧
    text "/MANIFEST" = slash :: text "MANIFEST" := by decide +kernel

@[simp] theorem nameExtra_eq : nameExtra = [45, 95] := constants.1

@[simp] theorem versionExtra_eq : versionExtra = [46, 45, 95] := constants.2.1

@[simp] theorem text_dot : text "." = [46] := constants.2.2.1

@[simp] theorem text_dots : text ".." = [46, 46] := constants.2.2.2.1

theorem alphanumeric_plain (h : isAlphanumeric b = true) : b < 0x80 ∧ b ≠ slash ∧ b ≠ 46 := by
  simp only [isAlphanumeric, decide_eq_true_eq, UInt8.le_iff_toNat_le] at h
  simp only [UInt8.lt_iff_toNat_lt, ne_eq, ← UInt8.toNat_inj]
  simp only [slash, UInt8.reduceToNat] at h ⊢
  omega

theorem nameChar_plain (h : (isAlphanumeric b || nameExtra.contains b) = true) :
    b < 0x80 ∧ b ≠ slash ∧ b ≠ 46 := by
  rcases Bool.or_eq_true_iff.mp h with letter | other
  · exact alphanumeric_plain letter
  simp only [nameExtra_eq, contains_eq_mem, mem_cons, not_mem_nil, or_false, decide_eq_true_eq] at other
  rcases other with rfl | rfl <;> decide

theorem versionChar_plain (h : (isAlphanumeric b || versionExtra.contains b) = true) :
    b < 0x80 ∧ b ≠ slash := by
  rcases Bool.or_eq_true_iff.mp h with letter | other
  · exact ⟨(alphanumeric_plain letter).1, (alphanumeric_plain letter).2.1⟩
  simp only [versionExtra_eq, contains_eq_mem, mem_cons, not_mem_nil, or_false, decide_eq_true_eq] at other
  rcases other with rfl | rfl | rfl <;> decide

structure Plain (part : Text) (limit : Nat) : Prop where
  safe : Safe part
  ascii : ∀ b ∈ part, b < 0x80
  short : part.length ≤ limit

theorem nameValid_iff {name : Text} {extra : Text} : nameValid name limit extra = true ↔
    name ≠ [] ∧ name.length ≤ limit ∧ ∀ b ∈ name, (isAlphanumeric b || extra.contains b) = true := by
  simp only [nameValid, decide_eq_true_eq, all_eq_true]

theorem name_plain {name : Text} (h : nameValid name nameMax nameExtra = true) : Plain name 24 := by
  obtain ⟨nonempty, short, chars⟩ := nameValid_iff.mp h
  refine ⟨⟨nonempty, ?_, ?_, ?_⟩, fun b hb => (nameChar_plain (chars b hb)).1, short⟩
  · rintro rfl
    exact (nameChar_plain (chars 46 (by simp))).2.2 rfl
  · rintro rfl
    exact (nameChar_plain (chars 46 (by simp))).2.2 rfl
  · exact fun hb => (nameChar_plain (chars slash hb)).2.1 rfl

theorem part_plain {version : Text} (h : Part version) (nonempty : version ≠ []) : Plain version 16 := by
  refine ⟨⟨nonempty, ?_, ?_, ?_⟩, fun b hb => (versionChar_plain (h.chars b hb)).1, h.short⟩
  · rintro rfl
    exact h.noDot (by simp)
  · rintro rfl
    exact h.noDot (by simp)
  · exact fun hb => (versionChar_plain (h.chars slash hb)).2 rfl

theorem part_versionName {version : Text} (h : Part version) (nonempty : version ≠ []) : VersionName version := by
  have safe := (part_plain h nonempty).safe
  exact ⟨nameValid_iff.mpr ⟨nonempty, h.short, h.chars⟩, safe.2.1, safe.2.2.1⟩

theorem pathText_splitOn (path : Text) : pathText (path.splitOn slash) = slash :: path := by
  induction path with
  | nil => rfl
  | cons b path ih =>
    rw [splitOn_cons_eq_if_modifyHead]
    split
    · rename_i same
      rw [pathText_cons, ih, beq_iff_eq.mp same]
      rfl
    cases parts : path.splitOn slash with
    | nil => exact absurd parts (splitOn_ne_nil _ _)
    | cons _ _ =>
      rw [parts, pathText_cons] at ih
      simp only [modifyHead_cons, pathText_cons]
      simpa using ih

theorem notMem_of_mem_splitOn (h : part ∈ path.splitOn slash) : slash ∉ part := by
  induction path generalizing part with
  | nil => simp_all
  | cons b path ih =>
    rw [splitOn_cons_eq_if_modifyHead] at h
    split at h
    · rcases mem_cons.mp h with rfl | rest
      · simp
      · exact ih rest
    rename_i other
    cases parts : path.splitOn slash with
    | nil => exact absurd parts (splitOn_ne_nil _ _)
    | cons first rest =>
      rw [parts, modifyHead_cons] at h
      rcases mem_cons.mp h with rfl | later
      · have clean : slash ∉ first := ih (by simp [parts])
        have differs : slash ≠ b := fun same => other (by simp [same])
        simp [clean, differs]
      · exact ih (by simp [parts, later])

theorem pathValid_parts (h : pathValid path = true) :
    (∀ part ∈ path.splitOn slash, Safe part) ∧ (∀ part ∈ path.splitOn slash, ∀ b ∈ part, b < 0x80) ∧
      (pathText (path.splitOn slash)).length ≤ 97 ∧ path.splitOn slash ≠ [] := by
  simp only [pathValid, decide_eq_true_eq, all_eq_true] at h
  obtain ⟨-, short, -, -, parts⟩ := h
  refine ⟨?_, ?_, ?_, splitOn_ne_nil _ _⟩
  · intro part hp
    obtain ⟨nonempty, dot, dots, -⟩ := parts part hp
    refine ⟨nonempty, dot, dots, ?_⟩
    exact notMem_of_mem_splitOn hp
  · intro part hp b hb
    obtain ⟨-, -, -, chars⟩ := parts part hp
    have graphic := chars b hb
    simp only [Bool.and_eq_true, isGraphic, decide_eq_true_eq, UInt8.le_iff_toNat_le] at graphic
    simp only [UInt8.lt_iff_toNat_lt]
    simp only [UInt8.reduceToNat] at graphic ⊢
    omega
  · rw [pathText_splitOn, length_cons]
    unfold pathMax at short
    omega

theorem plain_tail (h : ∀ part ∈ parts, Plain part part.length) (short : (pathText parts).length ≤ 144) :
    Tail parts :=
  ⟨fun part hp => (h part hp).safe, fun part hp => (h part hp).ascii, short⟩

theorem apps_eq : apps = [97, 112, 112, 115] := constants.2.2.2.2.1

theorem db_eq : db = [100, 98] := constants.2.2.2.2.2.1

theorem manifest_eq : text "MANIFEST" = [77, 65, 78, 73, 70, 69, 83, 84] := constants.2.2.2.2.2.2.1

theorem lead_apps : text "/apps/" = slash :: apps ++ [slash] := constants.2.2.2.2.2.2.2.1

theorem lead_manifest : text "/MANIFEST" = slash :: text "MANIFEST" := constants.2.2.2.2.2.2.2.2.2.2

theorem plain_apps : Plain apps apps.length := by
  rw [apps_eq]
  exact ⟨by simp [Safe, slash], by simp, le_rfl⟩

theorem plain_manifest : Plain (text "MANIFEST") (text "MANIFEST").length := by
  rw [manifest_eq]
  exact ⟨by simp [Safe, slash], by simp, le_rfl⟩

theorem Plain.self (h : Plain part limit) : Plain part part.length := ⟨h.safe, h.ascii, le_rfl⟩

theorem pathText_length_cons (part : Text) (key : Key) :
    (pathText (part :: key)).length = part.length + 1 + (pathText key).length := by
  simp only [pathText_cons, length_append, length_cons]

theorem apps_length : apps.length = 4 := by rw [apps_eq]; rfl

section
variable {name version : Text}

section
variable (hname : Plain name 24)
include hname

theorem tail_pair (h : Plain part 4) : Tail [part, name] := by
  apply plain_tail
  · intro _ hp
    simp only [mem_cons, not_mem_nil, or_false] at hp
    rcases hp with rfl | rfl
    · exact h.self
    · exact hname.self
  · have := h.short
    have := hname.short
    simp only [pathText_length_cons, pathText_nil, length_nil]
    omega

theorem tail_name : Tail [apps, name] := tail_pair hname ⟨plain_apps.safe, plain_apps.ascii, apps_length.le⟩

theorem tail_db : Tail [db, name] := by
  apply tail_pair hname
  rw [db_eq]
  exact ⟨by simp [Safe, slash], by simp, by simp⟩

theorem tail_version (hversion : Plain version 16) {parts : Key}
    (safe : ∀ part ∈ parts, Safe part) (ascii : ∀ part ∈ parts, ∀ b ∈ part, b < 0x80)
    (short : (pathText parts).length ≤ 97) : Tail ([apps, name, version] ++ parts) := by
  apply plain_tail
  · intro part hp
    simp only [cons_append, nil_append, mem_cons] at hp
    rcases hp with rfl | rfl | rfl | inside
    · exact plain_apps
    · exact hname.self
    · exact hversion.self
    · exact ⟨safe part inside, ascii part inside, le_rfl⟩
  · have := hname.short
    have := hversion.short
    simp only [cons_append, nil_append, pathText_length_cons, apps_length]
    omega

end

variable (hroot : Root root)
include hroot

section
variable (hname : Plain name 24)
include hname

theorem nameDirectory_eq : nameDirectory (pathText root) name = pathText (root ++ [apps, name]) := by
  rw [← asStr_path hroot (tail_name hname)]
  simp [nameDirectory, join, lead_apps, pathText_cons]

theorem dbPath_eq : dbPath (pathText root) name = pathText (root ++ [db, name]) := by
  rw [← asStr_path hroot (tail_db hname)]
  have lead : text "/db/" = slash :: db ++ [slash] := constants.2.2.2.2.2.2.2.2.2.1
  simp [dbPath, join, lead, pathText_cons]

section
variable (hversion : Plain version 16)
include hversion

theorem versionDirectory_eq :
    versionDirectory (pathText root) name version = pathText (root ++ [apps, name, version]) := by
  have tail := @tail_version name version hname hversion [] (by simp) (by simp) (by simp)
  rw [append_nil] at tail
  rw [← asStr_path hroot tail]
  simp [versionDirectory, join, lead_apps, pathText_cons]

theorem entryPath_eq (valid : pathValid entry.path = true) :
    entryPath (pathText (root ++ [apps, name, version])) entry =
        pathText (root ++ ([apps, name, version] ++ entry.path.splitOn slash)) ∧
      Tail ([apps, name, version] ++ entry.path.splitOn slash) := by
  obtain ⟨safe, ascii, short, -⟩ := pathValid_parts valid
  have tail := tail_version hname hversion safe ascii short
  refine ⟨?_, tail⟩
  rw [← asStr_path hroot tail, entryPath, join]
  congr 1
  simp [pathText_splitOn, pathText_cons]

theorem manifestPath_eq : manifestPath (pathText (root ++ [apps, name, version])) =
        pathText (root ++ ([apps, name, version] ++ [text "MANIFEST"])) ∧
      Tail ([apps, name, version] ++ [text "MANIFEST"]) := by
  have tail := @tail_version name version hname hversion [text "MANIFEST"]
    (by simpa using plain_manifest.safe) (by simpa using plain_manifest.ascii) (by rw [manifest_eq]; decide)
  refine ⟨?_, tail⟩
  rw [← asStr_path hroot tail, manifestPath, join]
  congr 1
  simp [lead_manifest, pathText_cons]

theorem entryDirectories_mem (valid : pathValid entry.path = true)
    (h : path ∈ entryDirectories (pathText (root ++ [apps, name, version])) entry) :
    ∃ parts, path = pathText (root ++ ([apps, name, version] ++ parts)) ∧ Tail ([apps, name, version] ++ parts) := by
  obtain ⟨i, -, rfl⟩ := mem_map.mp h
  have whole := (entryPath_eq hroot hname hversion valid).2
  have tail : Tail ([apps, name, version] ++ (entry.path.splitOn slash).take (i + 1)) := by
    have cut := whole.take ([apps, name, version].length + (i + 1))
    rwa [take_length_add_append] at cut
  refine ⟨_, ?_, tail⟩
  rw [← asStr_path hroot tail]
  congr 1
  simp [pathText]

end

end

theorem ancestors_mem (htail : Tail tail) (h : path ∈ ancestors (pathText (root ++ tail))) :
    (∃ i, 0 < i ∧ i ≤ root.length ∧ components path = root.take i) ∨
      ∃ j, 0 < j ∧ j ≤ tail.length ∧ path = pathText (root ++ tail.take j) := by
  have safe := safe_path hroot htail
  have parts : ((pathText (root ++ tail)).splitOn slash).filter (· ≠ []) = root ++ tail := by
    rw [splitOn_pathText fun part hp => (safe part hp).2.2.2, filter_cons_of_neg (by simp)]
    exact filter_eq_self.mpr fun part hp => by simpa using (safe part hp).1
  rw [ancestors] at h
  simp only [parts] at h
  obtain ⟨i, hi, rfl⟩ := mem_map.mp h
  have bound := mem_range.mp hi
  rw [length_append] at bound
  rcases lt_or_ge i root.length with above | _
  · left
    have front : (root ++ tail).take (i + 1) = root.take (i + 1) := take_append_of_le_length above
    have length : (pathText (root.take (i + 1))).length ≤ pathBuffer := by
      have := (pathText_take_le root (i + 1)).trans hroot.short
      unfold pathBuffer
      omega
    refine ⟨i + 1, Nat.succ_pos _, above, ?_⟩
    change components (asStr pathBuffer (pathText ((root ++ tail).take (i + 1)))) = _
    rw [front, asStr, take_of_length_le length, if_pos (validUtf8_take hroot _)]
    exact components_pathText fun part hp => hroot.safe part (mem_of_mem_take hp)
  · right
    have behind : (root ++ tail).take (i + 1) = root ++ tail.take (i + 1 - root.length) := by
      rw [take_append, take_of_length_le (by omega)]
    refine ⟨i + 1 - root.length, by omega, by omega, ?_⟩
    change asStr pathBuffer (pathText ((root ++ tail).take (i + 1))) = _
    rw [behind, asStr_path hroot (htail.take _)]

end

variable {found : Db} {content lead line rest value version : Text} {α : Type}

theorem foldlM_ok {β : Type} {f : β → α → Except Failure β} {P : β → Prop}
    (step : ∀ b a b', P b → f b a = .ok b' → P b') {xs : List α} {b b' : β} (h : P b)
    (run : xs.foldlM f b = .ok b') : P b' := by
  induction xs generalizing b with
  | nil =>
    cases run
    exact h
  | cons x xs ih =>
    rw [foldlM_cons] at run
    cases first : f b x with
    | error e => simp [first, bind, Except.bind] at run
    | ok next =>
      rw [first] at run
      exact ih (step b x next h first) run

theorem parseEntry_valid {spec : Text} {entry : Entry} (h : parseEntry spec = .ok entry) :
    pathValid entry.path = true := by
  unfold parseEntry at h
  split at h
  · split at h
    · simp at h
    · rename_i valid
      split at h
      · split at h
        · simp at h
        · split at h
          · simp at h
          · split at h
            · cases h
              simpa using valid
            · simp at h
      · simp at h
  · simp at h

theorem map_ok {β : Type} {x : Except Failure α} {f : α → β} {b : β} (h : x.map f = .ok b) :
    ∃ a, x = .ok a ∧ f a = b := by
  cases x with
  | error e => simp [Except.map] at h
  | ok a => exact ⟨a, rfl, by simpa [Except.map] using h⟩

theorem parseManifest_valid {entries : List Entry} (h : parseManifest content = .ok entries) :
    ∀ entry ∈ entries, pathValid entry.path = true := by
  unfold parseManifest at h
  split at h
  · simp at h
  apply foldlM_ok (P := fun entries => ∀ entry ∈ entries, pathValid entry.path = true) _ (by simp) h
  intro _ _ _ valid next
  split at next
  · simp at next
  obtain ⟨entry, parsed, rfl⟩ := map_ok next
  intro e member
  rcases mem_append.mp member with old | new
  · exact valid e old
  rw [mem_singleton.mp new]
  exact parseEntry_valid parsed

structure FieldsOk (fields : Fields) : Prop where
  name : ∀ name, fields.name = some name → nameValid name nameMax nameExtra = true
  version : ∀ version, fields.version = some version → nameValid version versionMax versionExtra = true
  entries : ∀ entry ∈ fields.entries, pathValid entry.path = true

theorem parseLine_ok {fields fields' : Fields} (h : FieldsOk fields)
    (parsed : parseLine fields line = .ok fields') : FieldsOk fields' := by
  unfold parseLine at parsed
  split at parsed
  · split at parsed
    · simp at parsed
    · rename_i name _ fine
      cases parsed
      refine ⟨?_, h.version, h.entries⟩
      intro other same
      cases same
      by_contra bad
      exact fine (.inr (by rw [Bool.eq_false_iff.mpr bad]; rfl))
  split at parsed
  · split at parsed
    · simp at parsed
    · rename_i version _ fine
      cases parsed
      refine ⟨h.name, ?_, h.entries⟩
      intro other same
      cases same
      by_contra bad
      exact fine (.inr (by rw [Bool.eq_false_iff.mpr bad]; rfl))
  split at parsed
  · split at parsed
    · simp at parsed
    · obtain ⟨_, valid, rfl⟩ := map_ok parsed
      refine ⟨h.name, h.version, ?_⟩
      intro e member
      rcases mem_append.mp member with old | new
      · exact h.entries e old
      rw [mem_singleton.mp new]
      exact parseEntry_valid valid
  · simp at parsed

structure HeaderOk (header : Header) : Prop where
  name : nameValid header.name nameMax nameExtra = true
  version : nameValid header.version versionMax versionExtra = true
  entries : ∀ entry ∈ header.entries, pathValid entry.path = true

theorem parseHeader_ok {raw : Text} {header : Header} (h : parseHeader raw = .ok header) : HeaderOk header := by
  unfold parseHeader at h
  split at h
  · simp at h
  split at h
  · simp at h
  split at h
  · simp at h
  split at h
  · simp at h
  split at h
  · simp at h
  · rename_i run
    have ok : FieldsOk _ := foldlM_ok (P := FieldsOk) (fun _ _ _ => parseLine_ok)
      ⟨by simp, by simp, by simp⟩ run
    split at h
    · simp at h
    cases h
    exact ⟨ok.name _ rfl, ok.version _ rfl, ok.entries⟩
  · simp at h

theorem part_prefix {front : Text} (h : Part version) (le : front <+: version) : Part front := by
  refine ⟨fun b hb => h.chars b (le.subset hb), le.length_le.trans h.short, ?_⟩
  intro dot
  apply h.noDot
  obtain ⟨_, rfl⟩ := le
  cases front with
  | nil => simp at dot
  | cons b front => simpa using dot

theorem asStr_front (limit : Nat) (bytes : Text) : asStr limit bytes <+: bytes := by
  unfold asStr
  split
  · exact take_prefix _ _
  · exact nil_prefix

theorem prefix_append_cases {xs ys zs : List α} (h : xs <+: ys ++ zs) :
    xs <+: ys ∨ ∃ rest, xs = ys ++ rest ∧ rest <+: zs := by
  obtain ⟨more, eq⟩ := h
  rcases append_eq_append_iff.mp eq with ⟨mid, longer, -⟩ | ⟨mid, longer, tail⟩
  · exact .inl ⟨mid, longer.symm⟩
  · exact .inr ⟨mid, longer, more, tail.symm⟩

theorem splitOn_of_prefix {first second part : Text} (hfirst : newline ∉ first) (hsecond : newline ∉ second)
    (front : content <+: first ++ [newline] ++ (second ++ [newline])) (h : part ∈ content.splitOn newline) :
    part <+: first ∨ part <+: second := by
  rw [append_assoc, singleton_append] at front
  rcases prefix_append_cases front with inFirst | ⟨rest, rfl, behind⟩
  · rw [splitOn_eq_singleton fun member => hfirst (inFirst.subset member)] at h
    exact .inl (mem_singleton.mp h ▸ inFirst)
  rcases prefix_cons_iff.mp behind with rfl | ⟨rest, rfl, last⟩
  · rw [append_nil, splitOn_eq_singleton hfirst] at h
    exact .inl (mem_singleton.mp h ▸ prefix_refl _)
  rw [splitOn_append_cons_self_of_not_mem hfirst] at h
  rcases mem_cons.mp h with rfl | h
  · exact .inl (prefix_refl _)
  right
  rcases prefix_concat_iff.mp last with rfl | inSecond
  · rw [splitOn_append_cons_self_of_not_mem hsecond] at h
    rcases mem_cons.mp h with rfl | h
    · exact prefix_refl _
    rw [mem_singleton.mp h]
    exact nil_prefix
  · rw [splitOn_eq_singleton fun member => hsecond (inSecond.subset member)] at h
    exact mem_singleton.mp h ▸ inSecond

theorem mem_lines (h : line ∈ lines content) : ∃ part ∈ content.splitOn newline, line <+: part := by
  have ended : ∀ line ∈ (content.splitOn newline).dropLast.map
      (fun line => if line.getLast? = some 13 then line.dropLast else line),
      ∃ part ∈ content.splitOn newline, line <+: part := by
    intro line member
    obtain ⟨part, hp, rfl⟩ := mem_map.mp member
    refine ⟨part, mem_of_mem_dropLast hp, ?_⟩
    split
    · exact dropLast_prefix _
    · exact prefix_refl _
  unfold lines at h
  dsimp only at h
  split at h
  · exact ended line h
  rcases mem_append.mp h with old | last
  · exact ended line old
  rw [Option.mem_toList] at last
  exact ⟨line, mem_of_getLast? last, prefix_refl _⟩

theorem stripPrefix_some (h : stripPrefix lead line = some rest) : line = lead ++ rest := by
  unfold stripPrefix at h
  split at h
  · rename_i starts
    obtain ⟨_, rfl⟩ := isPrefixOf_iff_prefix.mp starts
    simpa using h
  · simp at h

theorem field_front (front : line <+: lead ++ value)
    (h : stripPrefix lead line = some rest) : rest <+: value := by
  rw [stripPrefix_some h] at front
  exact (prefix_append_right_inj lead).mp front

theorem field_other {lead' : Text} (front : line <+: lead ++ value)
    (h : stripPrefix lead' line = some rest) (differ : lead.head? ≠ lead'.head?) (hlead : lead ≠ [])
    (hlead' : lead' ≠ []) : False := by
  rw [stripPrefix_some h] at front
  cases lead with
  | nil => exact hlead rfl
  | cons b lead =>
    cases lead' with
    | nil => exact hlead' rfl
    | cons _ lead' =>
      simp only [cons_append, cons_prefix_cons] at front
      exact differ (by simp [front.1])

def PartsOnly (found : Option Text × Option Text) : Prop :=
  (∀ v, found.1 = some v → Part v) ∧ ∀ v, found.2 = some v → Part v

theorem readDbLine_part {current previous : Text} {found : Option Text × Option Text} (hcurrent : Part current)
    (hprevious : Part previous)
    (front : line <+: text "current=" ++ current ∨ line <+: text "previous=" ++ previous)
    (h : PartsOnly found) : PartsOnly (readDbLine found line) := by
  unfold readDbLine
  split
  · rename_i version named
    refine ⟨?_, h.2⟩
    intro v same
    cases same
    rcases front with front | front
    · exact part_prefix hcurrent ((asStr_front _ _).trans (field_front front named))
    · exact (field_other front named (by decide +kernel) (by decide +kernel) (by decide +kernel)).elim
  split
  · rename_i version named
    split
    · refine ⟨h.1, ?_⟩
      intro v same
      cases same
      rcases front with front | front
      · exact (field_other front named (by decide +kernel) (by decide +kernel) (by decide +kernel)).elim
      · exact part_prefix hprevious ((asStr_front _ _).trans (field_front front named))
    · exact h
  · exact h

theorem parseDb_part (good : DbGood content) (limit : Nat) (h : parseDb (content.take limit) = some found) :
    Part found.current ∧ ∀ previous, found.previous = some previous → Part previous := by
  obtain ⟨current, previous, hcurrent, hprevious, front⟩ := good
  have front := ( take_prefix limit content).trans front
  have inLines : ∀ line ∈ lines (content.take limit),
      line <+: text "current=" ++ current ∨ line <+: text "previous=" ++ previous := by
    intro line member
    obtain ⟨part, hp, le⟩ := mem_lines member
    have noNewline : ∀ lead value : Text, newline ∉ lead → Part value → newline ∉ lead ++ value := by
      intro lead value clean part
      have : newline ∉ value := fun member => absurd (part.chars newline member) (by decide +kernel)
      simp [clean, this]
    rcases splitOn_of_prefix (noNewline _ _ (by decide +kernel) hcurrent) (noNewline _ _ (by decide +kernel) hprevious)
      front hp with inFirst | inSecond
    · exact .inl (le.trans inFirst)
    · exact .inr (le.trans inSecond)
  have folded : ∀ (xs : List Text) (found : Option Text × Option Text),
      (∀ line ∈ xs, line <+: text "current=" ++ current ∨ line <+: text "previous=" ++ previous) →
      PartsOnly found → PartsOnly (xs.foldl readDbLine found) := by
    intro xs
    induction xs with
    | nil => exact fun _ _ h => h
    | cons line xs ih =>
      intro found fronts h
      exact ih _ (fun l hl => fronts l (by simp [hl])) (readDbLine_part hcurrent hprevious (fronts line (by simp)) h)
  unfold parseDb at h
  split at h
  · simp at h
  obtain ⟨version, first, rfl⟩ := Option.map_eq_some_iff.mp h
  have parts := folded _ (none, none) inLines ⟨by simp, by simp⟩
  exact ⟨parts.1 version first, parts.2⟩

theorem dbText_good (hcurrent : Part found.current)
    (hprevious : ∀ previous, found.previous = some previous → Part previous) : DbGood (dbText found) := by
  refine ⟨found.current, found.previous.getD (text "-"), hcurrent, ?_, ?_⟩
  · cases before : found.previous with
    | none => exact ⟨by decide +kernel, by decide +kernel, by decide +kernel⟩
    | some previous => exact hprevious previous before
  have front := take_prefix 96 (text "current=" ++ found.current ++ [newline] ++ text "previous=" ++
    found.previous.getD (text "-") ++ [newline])
  simpa [dbText, append_assoc] using front

end AerOS.Proof.Pkg
