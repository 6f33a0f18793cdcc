import AerOS.Proof.Pkg.Calls

namespace AerOS.Proof.Pkg
open Lib Lib.Action AerOS.Pkg List

variable {root : Key}
variable {path : Key} {name package : Text} {w w' : World}

theorem wp_trustedKeys (root : Text) (w : World) :
    wp (trustedKeys root) (fun _ w' => Unchanged w w') (fun _ w' => Unchanged w w') w := by
  rw [trustedKeys, wp_attempt]
  exact wp_mono (wp_readAll _ _ w) (fun _ _ read => read.1) (fun _ _ same => same)

section
variable (hroot : Root root)
include hroot

theorem wp_install {sha256 : Text → Text} {authorise : Option Text → Text → Text → Except Failure Unit} {signature : Text} (kept : Kept root (Confined root w (.install package signature)) w)
    (orderly : Orderly w (.install package signature)) :
    wp (install sha256 authorise (pathText root) package signature)
      (fun _ w' => Kept root (Confined root w (.install package signature)) w')
      (fun _ w' => Kept root (Confined root w (.install package signature)) w') w := by
  rw [install, wp_bind]
  apply wp_mono (wp_trustedKeys _ w) _ (fun _ _ same => same.kept kept)
  intro _ w₁ same₁
  rw [wp_bind]
  apply wp_mono (wp_readAll signature 65 w₁) _ (fun _ _ same => (same₁.trans same).kept kept)
  intro _ w₂ read₂
  have same₂ := same₁.trans read₂.1
  rw [wp_bind, wholeFile, wp_bind, wp_get]
  split
  · rename_i content mode found
    split
    · exact same₂.kept kept
    rw [wp_pure]
    split
    · exact same₂.kept kept
    rw [wp_bind]
    apply wp_mono (wp_readAll package maxHeader w₂) _ (fun _ _ same => (same₂.trans same).kept kept)
    intro _ w₃ read₃
    have same₃ := same₂.trans read₃.1
    split
    · exact same₃.kept kept
    rename_i header parsed
    obtain ⟨_, _, found', rfl⟩ := read₃.2
    have known : headerOf w package = some header := by
      rw [same₂.node] at found'
      simp only [headerOf, found', parsed, Except.toOption]
    split
    · exact same₃.kept kept
    have allows : Allows root header.name header.version (Confined root w (.install package signature)) :=
      ⟨fun _ within => ⟨header, known, within⟩, fun _ within => ⟨header, known, within⟩,
        fun _ within => ⟨header, known, within⟩⟩
    have removes : Removes root header.name (Confined root w (.install package signature)) :=
      fun _ within => ⟨header, known, within⟩
    apply preserves_bind (preserves_installHeader hroot (parseHeader_ok parsed) (orderly header known) content
      allows removes) (fun _ => preserves_pure _) w₃ (same₃.kept kept)
  · exact same₂.kept kept

theorem wp_rollback (kept : Kept root (Confined root w (.rollback name)) w)
    (orderly : Orderly w (.rollback name)) :
    wp (rollback (pathText root) name) (fun _ w' => Kept root (Confined root w (.rollback name)) w')
      (fun _ w' => Kept root (Confined root w (.rollback name)) w') w := by
  have hname := name_plain orderly
  rw [rollback, wp_bind]
  apply wp_mono (wp_readDb hroot hname kept) _ (fun _ _ kept => kept)
  intro found w' read
  match found, read with
  | none, read => exact read.1
  | some ⟨_, none⟩, read => exact read.1
  | some ⟨current, some previous⟩, read =>
    obtain ⟨currentPart, previousPart⟩ := read.2 _ rfl
    apply preserves_bind _ (fun _ => preserves_pure _) w' read.1
    apply preserves_writeDb hroot hname
    · apply dbText_good (previousPart previous rfl)
      intro _ same
      cases same
      exact currentPart
    · exact ⟨by simp, rfl⟩
    · exact ⟨by simp, rfl⟩

theorem wp_remove (kept : Kept root (Confined root w (.remove name)) w) :
    wp (remove (pathText root) name) (fun _ w' => Kept root (Confined root w (.remove name)) w')
      (fun _ w' => Kept root (Confined root w (.remove name)) w') w := by
  rw [remove]
  split
  · exact kept
  rename_i valid
  have hname : Plain name 24 := name_plain (by simpa using valid)
  have removes : Removes root name (Confined root w (.remove name)) := fun path within => ⟨path, rfl, within⟩
  rw [wp_bind]
  apply wp_mono (wp_readDb hroot hname kept) _ (fun _ _ kept => kept)
  intro found w' read
  cases found with
  | none => exact read.1
  | some d =>
    obtain ⟨currentPart, previousPart⟩ := read.2 d rfl
    apply preserves_bind (preserves_removeVersion hroot hname removes currentPart) _ w' read.1
    intro _
    apply preserves_bind (preserves_retire hroot hname removes previousPart)
    intro _
    rw [dbPath_eq hroot hname]
    apply preserves_removeNode
    · rw [components_path hroot (tail_db hname)]
      simp
    rw [components_path hroot (tail_db hname)]
    exact removes _ within_db

end

variable {sha256 : Text → Text} {authorise : Option Text → Text → Text → Except Failure Unit}

theorem step_kept (hroot : Root root) (ready : Ready root w) {call : Call} (orderly : Orderly w call) :
    Kept root (Confined root w call) (step sha256 authorise root w call) := by
  have kept : Kept root (Confined root w call) { w with effects := [] } := ⟨ready_same ready rfl rfl, by simp⟩
  cases call with
  | install _ _ => exact state_of_wp (wp_install hroot kept orderly)
  | rollback name => exact state_of_wp (wp_rollback hroot kept orderly)
  | remove name => exact state_of_wp (wp_remove hroot kept)

theorem key_ne_of_versions (w : World) {version name' version' : Text}
    (differ : w.key [name, version] ≠ w.key [name', version']) {path' : Key}
    (h : root ++ [apps, name, version] <+: path) (h' : root ++ [apps, name', version'] <+: path') :
    w.key path ≠ w.key path' := by
  obtain ⟨_, rfl⟩ := h
  obtain ⟨_, rfl⟩ := h'
  intro same
  apply differ
  unfold World.key at same ⊢
  split at same
  · rename_i caseless
    simp only [map_append, map_cons, append_assoc, cons_append, map_nil] at same
    have tails := append_cancel_left same
    simp only [cons.injEq] at tails
    simp [caseless, tails.2.1, tails.2.2.1]
  rename_i caseless
  simp only [append_assoc, cons_append] at same
  have tails := append_cancel_left same
  simp only [cons.injEq] at tails
  simp [caseless, tails.2.1, tails.2.2.1]

/-- Packages stay in their own directory: every effect of every call lies within its package, and
what lies below the directories of two versions never meets. -/
theorem packages_confined (sha256 : Text → Text) (authorise : Option Text → Text → Text → Except Failure Unit)
    (root : Key) (hroot : Root root) (w : World) (ready : Ready root w) (calls : List Call)
    (orderly : Run.Along (step sha256 authorise root) Orderly w calls) :
    Run.Along (step sha256 authorise root)
        (fun w call => ∀ effect ∈ (step sha256 authorise root w call).effects, Confined root w call effect) w calls ∧
      ∀ (w : World) (name version name' version' : Text), w.key [name, version] ≠ w.key [name', version'] →
        ∀ path path', root ++ [apps, name, version] <+: path → root ++ [apps, name', version'] <+: path' →
          w.key path ≠ w.key path' := by
  constructor
  · exact Run.along_of_along (fun w call ready orderly => (step_kept hroot ready orderly).ready)
      (fun w call ready orderly => (step_kept hroot ready orderly).effects) ready orderly
  intro w name version name' version' differ path path' h h'
  exact key_ne_of_versions w differ h h'

def emptyDigest : Text :=
  [0xe3, 0xb0, 0xc4, 0x42, 0x98, 0xfc, 0x1c, 0x14, 0x9a, 0xfb, 0xf4, 0xc8, 0x99, 0x6f, 0xb9, 0x24,
    0x27, 0xae, 0x41, 0xe4, 0x64, 0x9b, 0x93, 0x4c, 0xa4, 0x95, 0x99, 0x1b, 0x78, 0x52, 0xb8, 0x55]

def packageText (version file : String) : Text :=
  text "AEROSPKG1\nname=a\nversion=" ++ text version ++ text "\nfile=" ++ text file ++ text ";644;0;" ++
    hexText emptyDigest ++ text "\ndata\n"

def homeRoot : Key := [text "home", text "pkg"]

theorem homeRoot_root : Root homeRoot := ⟨by decide +kernel, by decide +kernel, by decide +kernel⟩

/-- A FAT volume with two packages on it and an empty store. -/
def storeWith (first second : Text) : World where
  nodes :=
    [([text "home"], .directory), ([text "home", text "p"], .file first 0o644), ([text "home", text "q"], .file second 0o644),
      ([text "home", text "s"], .file [] 0o644), (homeRoot, .directory), (homeRoot ++ [apps], .directory),
      (homeRoot ++ [db], .directory)].map fun entry => (entry.1.map foldCase, entry.2)
  caseless := true
  answers := fun _ => none
  turn := 0
  effects := []

theorem storeWith_file {first second content : Text} {mode : Nat}
    (h : (storeWith first second).node path = some (.file content mode)) : path.length = 2 := by
  obtain ⟨entry, found, file⟩ := Option.map_eq_some_iff.mp h
  have here : entry.1 = path.map foldCase := by simpa [World.key, storeWith] using find?_some found
  have member := mem_of_find?_eq_some found
  simp only [storeWith, map_cons, map_nil, mem_cons, not_mem_nil, or_false] at member
  rw [← length_map foldCase, ← here]
  rcases member with rfl | rfl | rfl | rfl | rfl | rfl | rfl <;> simp at file ⊢

theorem storeWith_ready {first second : Text}
    (directories : ∀ path ∈ [homeRoot.take 1, homeRoot, homeRoot ++ [apps], homeRoot ++ [db]],
      (storeWith first second).node path = some .directory) : Ready homeRoot (storeWith first second) where
  above i positive le := by
    match i, positive, le with
    | 1, _, _ => exact directories _ (by simp)
    | 2, _, _ => exact directories homeRoot (by simp)
  apps_dir := directories _ (by simp)
  db_dir := directories _ (by simp)
  names name content mode file := absurd (storeWith_file file) (by simp [homeRoot])
  versions name version content mode file := absurd (storeWith_file file) (by simp [homeRoot])
  dbs name content mode file := absurd (storeWith_file file) (by simp [homeRoot])

def acceptAll (_ : Option Text) (_ _ : Text) : Except Failure Unit := .ok ()

abbrev firstCall : Call := .install (text "/home/p") (text "/home/s")

abbrev secondCall : Call := .install (text "/home/q") (text "/home/s")

def dotPackages : World := storeWith (packageText "1" "x") (packageText "." "1/x")

def dotInstalled : World := step (fun _ => emptyDigest) acceptAll homeRoot dotPackages firstCall

/-- A package whose version is a dot overwrites a file of the version that was installed before. -/
theorem dot_version_overwrites : Root homeRoot ∧ Ready homeRoot dotPackages ∧
      (install (fun _ => emptyDigest) acceptAll (pathText homeRoot) (text "/home/q") (text "/home/s")
        dotInstalled).1.toOption = some (text "a", text ".") ∧
      ∃ effect ∈ (step (fun _ => emptyDigest) acceptAll homeRoot dotInstalled secondCall).effects,
        effect = .overwritten (homeRoot ++ [apps, text "a", text "1", text "x"]) ∧
          ¬ Confined homeRoot dotInstalled secondCall effect := by
  refine ⟨homeRoot_root, storeWith_ready (by decide +kernel), by decide +kernel, _, ?_, rfl, ?_⟩
  · decide +kernel
  rintro ⟨header, known, within⟩
  have fields : (headerOf dotInstalled (text "/home/q")).map (fun header => (header.name, header.version)) =
      some (text "a", text ".") := by decide +kernel
  rw [known] at fields
  simp only [Option.map_some, Option.some.injEq, Prod.mk.injEq] at fields
  rcases within with name | database | ⟨version, rfl, below⟩
  · exact absurd (congrArg length name) (by simp [Effect.path])
  · exact absurd (congrArg length database) (by simp [Effect.path])
  rw [fields.1, fields.2] at below
  exact absurd below (by decide +kernel)

def plainPackages : World := storeWith (packageText "1" "x") (packageText "2" "x")

theorem orderly_of_version (header : Option (Option UInt8))
    (known : (headerOf w package).map (fun header => header.version.head?) = header) (ok : header ≠ some (some 46)) :
    Orderly w (.install package (text "/home/s")) := by
  intro _ found
  rw [found] at known
  exact fun dot => ok (by rw [← known, Option.map_some, dot])

theorem plain_versions_confined : Run.Along (step (fun _ => emptyDigest) acceptAll homeRoot)
      (fun w call => ∀ effect ∈ (step (fun _ => emptyDigest) acceptAll homeRoot w call).effects,
        Confined homeRoot w call effect) plainPackages [firstCall, secondCall] ∧
    (Run.final (step (fun _ => emptyDigest) acceptAll homeRoot) plainPackages [firstCall, secondCall]).node
      (homeRoot ++ [apps, text "a", text "2", text "x"]) = some (.file [] 0o644) := by
  refine ⟨(packages_confined (fun _ => emptyDigest) acceptAll homeRoot homeRoot_root plainPackages
    (storeWith_ready (by decide +kernel)) [firstCall, secondCall] ⟨?_, ?_, trivial⟩).1, by decide +kernel⟩
  · exact orderly_of_version (some (some 49)) (by decide +kernel) (by decide)
  · exact orderly_of_version (some (some 50)) (by decide +kernel) (by decide)

end AerOS.Proof.Pkg
