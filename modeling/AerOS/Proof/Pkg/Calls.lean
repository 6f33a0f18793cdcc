import AerOS.Proof.Pkg.Paths

namespace AerOS.Proof.Pkg
open Lib.Action AerOS.Pkg List

variable {path : Key} {mode : Nat} {content : Text}
variable {w' : World} {effect : Effect}

@[simp] theorem key_length (w : World) (path : Key) : (w.key path).length = path.length := by
  unfold World.key
  split <;> simp

theorem node_put (w : World) (path other : Key) (x : Node) :
    (w.put path x).node other = if w.key other = w.key path then some x else w.node other := by
  change (((w.key path, x) :: w.nodes.filter fun entry => entry.1 ≠ w.key path).find?
    fun entry => entry.1 = w.key other).map Prod.snd = _
  by_cases same : w.key other = w.key path
  · simp [same]
  rw [if_neg same, find?_cons_of_neg (by simpa using fun h => same h.symm), find?_filter]
  congr 2
  funext entry
  by_cases here : entry.1 = w.key other
  · simp [here, same]
  · simp [here]

theorem node_erase (w : World) (path other : Key) :
    (w.erase path).node other = if w.key other = w.key path then none else w.node other := by
  change ((w.nodes.filter fun entry => entry.1 ≠ w.key path).find? fun entry => entry.1 = w.key other).map Prod.snd = _
  rw [find?_filter]
  by_cases same : w.key other = w.key path
  · rw [if_pos same, Option.map_eq_none_iff, find?_eq_none]
    intro entry _
    simp [same]
  rw [if_neg same]
  congr 2
  funext entry
  by_cases here : entry.1 = w.key other
  · simp [here, same]
  · simp [here]

theorem key_db_ne_apps (w : World) (root rest rest' : Key) :
    w.key (root ++ db :: rest) ≠ w.key (root ++ apps :: rest') := by
  intro same
  unfold World.key at same
  split at same
  · simp only [map_append, map_cons] at same
    have heads := append_cancel_left same
    exact absurd (cons.inj heads).1 (by decide +kernel)
  · have heads := append_cancel_left same
    exact absurd (cons.inj heads).1 (by decide +kernel)

variable {root : Key} {w : World}

theorem key_ne_of_length {a b : Key} (h : a.length ≠ b.length) : w.key a ≠ w.key b := by
  intro same
  exact h (by simpa using congrArg length same)

theorem node_same (nodes : w'.nodes = w.nodes) (caseless : w'.caseless = w.caseless) : w'.node = w.node := by
  funext path
  have key : w'.key path = w.key path := by simp only [World.key, caseless]
  unfold World.node
  rw [nodes, key]

section
variable (h : Ready root w)
include h

theorem ready_same (nodes : w'.nodes = w.nodes) (caseless : w'.caseless = w.caseless) : Ready root w' := by
  have same := node_same nodes caseless
  exact ⟨same ▸ h.above, same ▸ h.apps_dir, same ▸ h.db_dir, same ▸ h.names, same ▸ h.versions, same ▸ h.dbs⟩

section
variable (deep : root.length + 2 ≤ path.length)
include deep

theorem ready_of_deep (kept : ∀ other, w.key other ≠ w.key path → w'.node other = w.node other)
    (names : ∀ name content mode, w.key (root ++ [apps, name]) = w.key path →
      w'.node (root ++ [apps, name]) ≠ some (.file content mode))
    (versions : ∀ name version content mode, w.key (root ++ [apps, name, version]) = w.key path →
      w'.node (root ++ [apps, name, version]) ≠ some (.file content mode))
    (dbs : ∀ name content mode, w.key (root ++ [db, name]) = w.key path →
      w'.node (root ++ [db, name]) = some (.file content mode) → DbGood content) : Ready root w' where
  above i positive le := by
    rw [kept _ (key_ne_of_length (by rw [length_take]; omega))]
    exact h.above i positive le
  apps_dir := by
    rw [kept _ (key_ne_of_length (by simp; omega))]
    exact h.apps_dir
  db_dir := by
    rw [kept _ (key_ne_of_length (by simp; omega))]
    exact h.db_dir
  names name content mode := by
    by_cases here : w.key (root ++ [apps, name]) = w.key path
    · exact names name content mode here
    rw [kept _ here]
    exact h.names name content mode
  versions name version content mode := by
    by_cases here : w.key (root ++ [apps, name, version]) = w.key path
    · exact versions name version content mode here
    rw [kept _ here]
    exact h.versions name version content mode
  dbs name content mode found := by
    by_cases here : w.key (root ++ [db, name]) = w.key path
    · exact dbs name content mode here found
    rw [kept _ here] at found
    exact h.dbs name content mode found

theorem ready_of_noFile (kept : ∀ other, w.key other ≠ w.key path → w'.node other = w.node other)
    (noFile : ∀ other content mode, w.key other = w.key path → w'.node other ≠ some (.file content mode)) : Ready root w' :=
  ready_of_deep h deep kept (fun _ => noFile _) (fun _ _ => noFile _)
    fun _ content mode here found => absurd found (noFile _ content mode here)

theorem ready_erase : Ready root (w.erase path) := by
  apply ready_of_noFile h deep
  · intro _ differs
    rw [node_erase, if_neg differs]
  · intro _ content mode here
    simp [node_erase, here]

theorem ready_put_directory : Ready root (w.put path .directory) := by
  apply ready_of_noFile h deep
  · intro _ differs
    rw [node_put, if_neg differs]
  · intro _ content mode here
    simp [node_put, here]

end

end

def Place (root path : Key) (content : Text) : Prop :=
  root.length + 4 ≤ path.length ∨ (∃ name, path = root ++ [db, name]) ∧ DbGood content

theorem Place.take (h : Place root path content) (count : Nat) : Place root path (content.take count) := by
  rcases h with deep | ⟨name, current, previous, hc, hp, front⟩
  · exact .inl deep
  · exact .inr ⟨name, current, previous, hc, hp, ( take_prefix _ _).trans front⟩

theorem Place.deep (h : Place root path content) : root.length + 2 ≤ path.length := by
  rcases h with deep | ⟨⟨_, rfl⟩, -⟩
  · omega
  · simp

theorem ready_put_file (mode : Nat) (h : Ready root w) (place : Place root path content) :
    Ready root (w.put path (.file content mode)) := by
  apply ready_of_deep h place.deep
  · intro _ differs
    rw [node_put, if_neg differs]
  · intro name content' mode' here
    rcases place with deep | ⟨⟨file, rfl⟩, -⟩
    · exact absurd here (key_ne_of_length (by simp; omega))
    · exact absurd here.symm (key_db_ne_apps w root _ _)
  · intro name _ content' mode' here
    rcases place with deep | ⟨⟨file, rfl⟩, -⟩
    · exact absurd here (key_ne_of_length (by simp; omega))
    · exact absurd here.symm (key_db_ne_apps w root _ _)
  intro name content' mode' here found
  rcases place with deep | ⟨-, good⟩
  · exact absurd here (key_ne_of_length (by simp; omega))
  rw [node_put, if_pos here] at found
  simp only [Option.some.injEq, Node.file.injEq] at found
  exact found.1 ▸ good

structure Kept (root : Key) (allowed : Effect → Prop) (w : World) : Prop where
  ready : Ready root w
  effects : ∀ effect ∈ w.effects, allowed effect

variable {allowed : Effect → Prop}

theorem kept_noted (h : Kept root allowed w) (ready : Ready root w')
    (same : w'.effects = w.effects) (ok : allowed effect) :
    Kept root allowed { w' with effects := w'.effects ++ [effect] } := by
  refine ⟨ready_same ready rfl rfl, fun e member => ?_⟩
  rcases mem_append.mp member with old | new
  · rw [same] at old
    exact h.effects e old
  rw [mem_singleton.mp new]
  exact ok

theorem kept_node {x : Node} (h : Kept root allowed w) (ready : Ready root (w.put path x))
    (ok : allowed effect) : Kept root allowed { w.put path x with effects := (w.put path x).effects ++ [effect] } :=
  kept_noted h ready rfl ok

def Unchanged (w w' : World) : Prop := w'.nodes = w.nodes ∧ w'.caseless = w.caseless ∧ w'.effects = w.effects

section
variable (h : Unchanged w w')
include h

theorem Unchanged.node (path : Key) : w'.node path = w.node path := by rw [node_same h.1 h.2.1]

theorem Unchanged.trans {w'' : World} (h' : Unchanged w' w'') : Unchanged w w'' :=
  ⟨h'.1.trans h.1, h'.2.1.trans h.2.1, h'.2.2.trans h.2.2⟩

theorem Unchanged.kept (kept : Kept root allowed w) : Kept root allowed w' :=
  ⟨ready_same kept.ready h.1 h.2.1, h.2.2 ▸ kept.effects⟩

end

theorem wp_willing (w : World) : wp willing (fun _ w' => Unchanged w w') (fun _ w' => Unchanged w w') w := by
  change wp _ _ _ { w with turn := w.turn + 1 }
  split <;> exact ⟨rfl, rfl, rfl⟩

theorem wp_reach (path : Text) (w : World) :
    wp (reach path) (fun _ w' => Unchanged w w') (fun _ w' => Unchanged w w') w := by
  rw [reach, wp_bind]
  apply wp_mono (wp_willing w) _ (fun _ _ same => same)
  intro _ w' same
  rw [wp_bind, wp_get]
  split <;> exact same

theorem wp_readAll (path : Text) (limit : Nat) (w : World) : wp (readAll path limit)
      (fun bytes w' => Unchanged w w' ∧ ∃ content mode, w.node (components path) = some (.file content mode) ∧
        bytes = content.take limit) (fun _ w' => Unchanged w w') w := by
  rw [readAll, wp_bind]
  apply wp_mono (wp_reach path w) _ (fun _ _ same => same)
  intro _ w' same
  rw [wp_bind, wp_get, same.node]
  split
  · rename_i content mode found
    exact ⟨same, content, mode, found, rfl⟩
  · exact same
  · exact same

theorem preserves_ask : Preserves (Kept root allowed) ask :=
  fun _ h => ⟨ready_same h.ready rfl rfl, h.effects⟩

theorem preserves_willing : Preserves (Kept root allowed) willing := by
  apply preserves_bind preserves_ask
  intro answer
  cases answer with
  | none => exact preserves_pure ()
  | some _ => exact preserves_throw _

theorem preserves_reach_get {path : Text} {f : World → M β} (hf : ∀ w, Kept root allowed w →
      wp (f w) (fun _ => Kept root allowed) (fun _ => Kept root allowed) w) :
    Preserves (Kept root allowed) (reach path >>= fun _ => get >>= f) := by
  refine preserves_bind (fun w h => ?_) fun _ => preserves_get_bind hf
  exact wp_mono (wp_reach path w) (fun _ _ same => same.kept h) fun _ _ same => same.kept h

theorem preserves_removeNode {path : Text} {directory : Bool} (deep : root.length + 2 ≤ (components path).length)
    (ok : allowed (.removed (components path))) : Preserves (Kept root allowed) (removeNode path directory) := by
  have erased : ∀ w, Kept root allowed w → Kept root allowed
      { w.erase (components path) with effects := (w.erase (components path)).effects ++ [.removed (components path)] } := by
    exact fun w h => kept_noted h (ready_erase h.ready deep) rfl ok
  refine preserves_reach_get fun w h => ?_
  split
  · exact h
  · split
    · exact h
    · exact erased w h
  split
  · exact h
  split
  · exact h
  · exact erased w h

theorem preserves_removeNode_of_noFile {path : Text}
    (noFile : ∀ w, Ready root w → ∀ content mode, w.node (components path) ≠ some (.file content mode)) :
    Preserves (Kept root allowed) (removeNode path false) := by
  refine preserves_reach_get fun w h => ?_
  split
  · exact h
  · rename_i content mode found
    exact absurd found (noFile w h.ready content mode)
  · exact h

theorem preserves_attemptTo {x : M Unit} (h : Preserves (Kept root allowed) x) :
    Preserves (Kept root allowed) (attemptTo x) := by
  exact preserves_attempt h (fun _ => preserves_pure _) (fun _ => preserves_pure _)

theorem preserves_openWrite {path : Text} (place : Place root (components path) [])
    (created : allowed (.created (components path))) (overwritten : allowed (.overwritten (components path))) :
    Preserves (Kept root allowed) (openWrite path mode) := by
  refine preserves_reach_get fun w h => ?_
  split
  · exact h
  · exact kept_node h (ready_put_file _ h.ready place) overwritten
  split
  · exact kept_node h (ready_put_file _ h.ready place) created
  · exact h

theorem preserves_writeOpened {path : Text} (place : Place root (components path) content) :
    Preserves (Kept root allowed) (writeOpened path content) := by
  apply preserves_bind preserves_ask
  intro _
  apply preserves_get_bind
  intro w h
  split
  · split
    · exact ⟨ready_put_file _ h.ready place, h.effects⟩
    · exact ⟨ready_put_file _ h.ready (place.take _), h.effects⟩
  · exact h

theorem preserves_writeAll {path : Text} (place : Place root (components path) content)
    (created : allowed (.created (components path))) (overwritten : allowed (.overwritten (components path))) :
    Preserves (Kept root allowed) (writeAll path content) :=
  preserves_bind (preserves_openWrite (place.take 0) created overwritten) fun _ => preserves_writeOpened place

theorem preserves_chmod {path : Text} (deep : root.length + 4 ≤ (components path).length)
    (ok : allowed (.remoded (components path))) : Preserves (Kept root allowed) (chmod path mode) := by
  refine preserves_reach_get fun w h => ?_
  split
  · exact kept_node h (ready_put_file _ h.ready (.inl deep)) ok
  · exact kept_noted h h.ready rfl ok
  · exact h

theorem preserves_isDirectory (path : Text) : Preserves (Kept root allowed) (isDirectory path) := by
  apply preserves_bind preserves_ask
  intro _
  apply preserves_get_bind
  exact fun _ h => h

theorem preserves_makeDirectory {path : Text}
    (there : (∀ w, Ready root w → w.node (components path) = some .directory) ∨
      root.length + 2 ≤ (components path).length ∧ allowed (.created (components path))) :
    Preserves (Kept root allowed) (makeDirectory path) := by
  have made : Preserves (Kept root allowed) (createDirectory path) := by
    refine preserves_reach_get fun w h => ?_
    split
    · exact h
    rename_i absent
    rcases there with always | ⟨deep, ok⟩
    · rw [always w h.ready] at absent
      simp at absent
    split
    · exact kept_node h (ready_put_directory h.ready deep) ok
    · exact h
  apply preserves_attempt made (fun _ => preserves_pure _)
  intro _
  split
  · exact preserves_pure ()
  apply preserves_bind (preserves_isDirectory path)
  intro there
  cases there
  · exact preserves_throw _
  · exact preserves_pure ()

theorem preserves_makeDirectories (hroot : Root root) {tail : Key} (htail : Tail tail)
    (made : ∀ j, 0 < j → j ≤ tail.length → (∀ w, Ready root w → w.node (root ++ tail.take j) = some .directory) ∨
      2 ≤ (tail.take j).length ∧ allowed (.created (root ++ tail.take j))) :
    Preserves (Kept root allowed) (makeDirectories (pathText (root ++ tail))) := by
  apply preserves_forEach
  intro _ member
  rcases ancestors_mem hroot htail member with ⟨i, positive, le, path_eq⟩ | ⟨j, positive, le, rfl⟩
  · apply preserves_makeDirectory
    left
    intro w ready
    rw [path_eq]
    exact ready.above i positive le
  apply preserves_makeDirectory
  rw [components_path hroot (htail.take j)]
  rcases made j positive le with always | ⟨_, ok⟩
  · exact .inl always
  · exact .inr ⟨by rw [length_append]; omega, ok⟩

variable {name version : Text}
variable {versions : Text → Prop}
variable {entries : List Entry} {header : Header}

structure Allows (root : Key) (name version : Text) (allowed : Effect → Prop) : Prop where
  created : ∀ path, Within root name (· = version) path → allowed (.created path)
  overwritten : ∀ path, Within root name (· = version) path → allowed (.overwritten path)
  remoded : ∀ path, Within root name (· = version) path → allowed (.remoded path)

def Removes (root : Key) (name : Text) (allowed : Effect → Prop) : Prop :=
  ∀ path, Within root name VersionName path → allowed (.removed path)

theorem within_own (parts : Key) :
    Within root name (fun other => other = version) (root ++ ([apps, name, version] ++ parts)) :=
  .inr (.inr ⟨version, rfl, parts, by simp⟩)

theorem within_name : Within root name versions (root ++ [apps, name]) := .inl rfl

theorem within_db : Within root name versions (root ++ [db, name]) := .inr (.inl rfl)

section
variable (hroot : Root root) (hname : Plain name 24) (removes : Removes root name allowed)
include hroot hname removes

theorem preserves_removeName :
    Preserves (Kept root allowed) (attemptTo (removeNode (nameDirectory (pathText root) name) true)) := by
  apply preserves_attemptTo
  rw [nameDirectory_eq hroot hname]
  apply preserves_removeNode
  · rw [components_path hroot (tail_name hname)]
    simp
  rw [components_path hroot (tail_name hname)]
  exact removes _ within_name

theorem preserves_removeEntries (hversion : Plain version 16) (versionName : VersionName version)
    (valid : ∀ entry ∈ entries, pathValid entry.path = true) :
    Preserves (Kept root allowed) (removeEntries (pathText (root ++ [apps, name, version])) entries) := by
  have below : ∀ parts directory, Tail ([apps, name, version] ++ parts) → Preserves (Kept root allowed)
        (attemptTo (removeNode (pathText (root ++ ([apps, name, version] ++ parts))) directory)) := by
    intro parts directory tail
    apply preserves_attemptTo
    apply preserves_removeNode
    · rw [components_path hroot tail]
      simp
    rw [components_path hroot tail]
    exact removes _ (.inr (.inr ⟨_, versionName, parts, by simp⟩))
  apply preserves_bind
  · apply preserves_forEach
    intro entry member
    obtain ⟨path, tail⟩ := entryPath_eq hroot hname hversion (valid entry member)
    rw [path]
    exact below _ _ tail
  intro _
  apply preserves_bind
  · apply preserves_forEach
    intro entry member
    apply preserves_forEach
    intro path inside
    obtain ⟨parts, rfl, tail⟩ := entryDirectories_mem hroot hname hversion (valid entry member) inside
    exact below _ _ tail
  intro _
  apply preserves_bind
  · obtain ⟨path, tail⟩ := manifestPath_eq hroot hname hversion
    rw [path]
    exact below _ _ tail
  intro _
  have tail := @tail_version name version hname hversion [] (by simp) (by simp) (by simp)
  have here := below [] true tail
  rwa [append_nil] at here

omit hroot hname removes in
theorem wp_manifestEntries (directory : Text) (h : Kept root allowed w) : wp (manifestEntries directory)
      (fun entries w' => Kept root allowed w' ∧ ∀ entry ∈ entries, pathValid entry.path = true)
      (fun _ w' => Kept root allowed w') w := by
  rw [manifestEntries, wp_attempt]
  refine wp_mono (preserves_reach_get (fun w h => by split <;> exact h) w h) ?_ ?_
  · intro content w' kept
    cases parsed : parseManifest content with
    | ok entries => exact ⟨kept, parseManifest_valid parsed⟩
    | error _ => exact ⟨kept, by simp⟩
  · intro _ w' kept
    exact ⟨kept, by simp⟩

omit removes in
theorem versionDirectory_nil : versionDirectory (pathText root) name [] = pathText (root ++ [apps, name]) ++ [slash] ∧
    components (pathText (root ++ [apps, name]) ++ [slash]) = root ++ [apps, name] ∧
    components (manifestPath (pathText (root ++ [apps, name]) ++ [slash])) = root ++ [apps, name, text "MANIFEST"] := by
  have tail := tail_name hname
  have within := components_path hroot tail
  have ascii : ∀ more : Text, (∀ b ∈ more, b < 0x80) → more.length ≤ 10 →
      asStr pathBuffer (pathText (root ++ [apps, name]) ++ more) = pathText (root ++ [apps, name]) ++ more := by
    intro more plain _
    have length : (pathText (root ++ [apps, name]) ++ more).length ≤ pathBuffer := by
      have := hroot.short
      have := hname.short
      simp only [pathText_append, length_append, pathText_length_cons, pathText_nil, length_nil, apps_length]
      unfold pathBuffer
      omega
    have valid : validUtf8 (pathText (root ++ [apps, name]) ++ more) = true := by
      apply validUtf8_append _ plain
      rw [pathText_append]
      exact validUtf8_append hroot.utf8 (pathText_ascii tail.ascii)
    rw [asStr, take_of_length_le length, if_pos valid]
  refine ⟨?_, ?_, ?_⟩
  · rw [← ascii [slash] (by simp [slash]) (by decide)]
    simp [versionDirectory, join, lead_apps, pathText_cons]
  · rw [components] at within ⊢
    rw [show pathText (root ++ [apps, name]) ++ [slash] = pathText (root ++ [apps, name]) ++ slash :: [] from rfl,
      splitOn_append_cons_self, filter_append, within]
    simp
  have path : manifestPath (pathText (root ++ [apps, name]) ++ [slash]) =
      pathText (root ++ [apps, name]) ++ slash :: (slash :: text "MANIFEST") := by
    rw [← ascii (slash :: (slash :: text "MANIFEST")) (by simp [manifest_eq, slash])
      (by rw [manifest_eq]; decide)]
    simp [manifestPath, join, lead_manifest]
  rw [components] at within
  rw [path, components, splitOn_append_cons_self, filter_append, within]
  have rest : (slash :: text "MANIFEST").splitOn slash = [[], text "MANIFEST"] := by
    rw [manifest_eq]
    decide
  have named : decide (text "MANIFEST" ≠ [] ∧ text "MANIFEST" ≠ text ".") = true :=
    decide_eq_true ⟨plain_manifest.safe.1, plain_manifest.safe.2.1⟩
  rw [rest, filter_cons_of_neg (by simp)]
  simp only [filter_cons, named]
  simp

theorem preserves_removeNothing : Preserves (Kept root allowed) (removeVersion (pathText root) name []) := by
  obtain ⟨directory, here, manifest⟩ := @versionDirectory_nil root name hroot hname
  have noFile : ∀ w, Ready root w → ∀ content mode,
      w.node (components (manifestPath (pathText (root ++ [apps, name]) ++ [slash]))) ≠ some (.file content mode) := by
    intro w ready content mode
    rw [manifest]
    exact ready.versions name _ content mode
  have noEntries : ∀ w, Kept root allowed w →
      wp (manifestEntries (pathText (root ++ [apps, name]) ++ [slash]))
        (fun entries w' => entries = [] ∧ Kept root allowed w') (fun _ w' => Kept root allowed w') w := by
    intro w h
    rw [manifestEntries, wp_attempt]
    apply wp_mono (wp_readAll _ _ w)
    · rintro _ w' ⟨_, content, mode, found, _⟩
      exact absurd found (noFile w h.ready content mode)
    · exact fun _ _ same => ⟨rfl, same.kept h⟩
  intro w h
  rw [removeVersion]
  simp only [directory]
  rw [wp_bind]
  apply wp_mono (noEntries w h) _ (fun _ _ kept => kept)
  rintro entries w' ⟨rfl, kept⟩
  apply preserves_bind _ (fun _ => preserves_removeName hroot hname removes) w' kept
  apply preserves_bind (preserves_forEach (by simp))
  intro _
  apply preserves_bind (preserves_forEach (by simp))
  intro _
  apply preserves_bind (preserves_attemptTo (preserves_removeNode_of_noFile noFile))
  intro _
  apply preserves_attemptTo
  apply preserves_removeNode
  · rw [here]
    simp
  rw [here]
  exact removes _ within_name

theorem preserves_removeVersion (part : Part version) :
    Preserves (Kept root allowed) (removeVersion (pathText root) name version) := by
  by_cases empty : version = []
  · rw [empty]
    exact preserves_removeNothing hroot hname removes
  have hversion := part_plain part empty
  intro w h
  rw [removeVersion]
  simp only [versionDirectory_eq hroot hname hversion]
  rw [wp_bind]
  apply wp_mono (wp_manifestEntries _ h) _ (fun _ _ kept => kept)
  intro _ w' found
  exact preserves_bind (preserves_removeEntries hroot hname removes hversion (part_versionName part empty) found.2)
    (fun _ => preserves_removeName hroot hname removes) w' found.1

theorem preserves_retire {old : Option Text} (part : ∀ version, old = some version → Part version) :
    Preserves (Kept root allowed) (retire (pathText root) name old) := by
  cases old with
  | none => exact preserves_pure ()
  | some version => exact preserves_removeVersion hroot hname removes (part version rfl)

end

section
variable (hroot : Root root) (hname : Plain name 24)
include hroot hname

theorem wp_readDb (h : Kept root allowed w) : wp (readDb (pathText root) name)
      (fun found w' => Kept root allowed w' ∧ ∀ d, found = some d → Part d.current ∧ ∀ p, d.previous = some p → Part p)
      (fun _ w' => Kept root allowed w') w := by
  rw [readDb, wp_attempt, dbPath_eq hroot hname]
  apply wp_mono (wp_readAll _ _ w)
  · rintro _ w' ⟨same, content, mode, found, rfl⟩
    rw [components_path hroot (tail_db hname)] at found
    exact ⟨same.kept h, fun d parsed => parseDb_part (h.ready.dbs name content mode found) 96 parsed⟩
  · exact fun _ _ same => ⟨same.kept h, by simp⟩

theorem preserves_writeDb {found : Db} (good : DbGood (dbText found)) (created : allowed (.created (root ++ [db, name])))
    (overwritten : allowed (.overwritten (root ++ [db, name]))) :
    Preserves (Kept root allowed) (writeDb (pathText root) name found) := by
  have tail := tail_db hname
  have dbTail : Tail [db] := tail.take 1
  have directory : join [pathText root, text "/db"] = pathText (root ++ [db]) := by
    rw [← asStr_path hroot dbTail]
    have lead : text "/db" = slash :: db := constants.2.2.2.2.2.2.2.2.1
    simp [join, lead, pathText_cons]
  apply preserves_bind
  · rw [directory]
    apply preserves_makeDirectories hroot dbTail
    intro j _ le
    left
    intro w ready
    have whole : [db].take j = [db] := take_of_length_le (by simp; omega)
    rw [whole]
    exact ready.db_dir
  intro _
  rw [dbPath_eq hroot hname]
  have path := components_path hroot tail
  apply preserves_writeAll
  · rw [path]
    exact .inr ⟨⟨name, rfl⟩, good⟩
  · rw [path]
    exact created
  · rw [path]
    exact overwritten

end

section
variable {sha256 : Text → Text} (hroot : Root root) (hname : Plain name 24) (hversion : Plain version 16)
variable (allows : Allows root name version allowed)
include hroot hname hversion allows

omit hname hversion in
theorem preserves_makeBelow {parts : Key} (tail : Tail ([apps, name, version] ++ parts)) :
    Preserves (Kept root allowed) (makeDirectories (pathText (root ++ ([apps, name, version] ++ parts)))) := by
  apply preserves_makeDirectories hroot tail
  intro j positive le
  match j, positive with
  | 1, _ => exact .inl fun w ready => ready.apps_dir
  | 2, _ => exact .inr ⟨by simp, allows.created _ within_name⟩
  | j + 3, _ =>
    right
    have front : ([apps, name, version] ++ parts).take (j + 3) = [apps, name, version] ++ parts.take j := rfl
    exact ⟨by simp, allows.created _ (within_own _)⟩

omit hroot hname hversion allows in
theorem parent_eq (key : Key) {last : Text} (clean : slash ∉ last) :
    ((pathText (key ++ [last])).reverse.dropWhile (· ≠ slash)).tail.reverse = pathText key := by
  have text : (pathText (key ++ [last])).reverse = last.reverse ++ slash :: (pathText key).reverse := by
    simp [pathText_cons]
  rw [text, dropWhile_append_of_pos, dropWhile_cons_of_neg (by simp), tail_cons, reverse_reverse]
  intro b hb
  have : b ≠ slash := fun same => clean (same ▸ mem_reverse.mp hb)
  simpa using this

theorem preserves_copyOne (package : Text) (offset : Nat) {entry : Entry} (valid : pathValid entry.path = true) :
    Preserves (Kept root allowed) (copyOne sha256 package offset (pathText (root ++ [apps, name, version])) entry) := by
  obtain ⟨path, tail⟩ := entryPath_eq hroot hname hversion valid
  obtain ⟨safe, -, -, nonempty⟩ := pathValid_parts valid
  have comps := components_path hroot tail
  have deep : root.length + 4 ≤ (root ++ ([apps, name, version] ++ entry.path.splitOn slash)).length := by
    have := length_pos_of_ne_nil nonempty
    simp only [length_append, length_cons, length_nil]
    omega
  have own := @within_own root name version (entry.path.splitOn slash)
  obtain ⟨parts, last, split⟩ : ∃ parts last, entry.path.splitOn slash = parts ++ [last] :=
    ⟨_, _, (dropLast_append_getLast nonempty).symm⟩
  have parentTail : Tail ([apps, name, version] ++ parts) := by
    have cut := tail.take ([apps, name, version] ++ parts).length
    rwa [split, ← append_assoc, take_left'] at cut
    rfl
  have parent : ((entryPath (pathText (root ++ [apps, name, version])) entry).reverse.dropWhile (· ≠ slash)).tail.reverse =
      pathText (root ++ ([apps, name, version] ++ parts)) := by
    have clean : slash ∉ last := (safe last (by simp [split])).2.2.2
    rw [path, split, ← append_assoc, ← append_assoc, parent_eq _ clean, append_assoc]
  rw [copyOne]
  simp only [parent]
  apply preserves_bind (preserves_makeBelow hroot allows parentTail)
  intro _
  rw [path]
  apply preserves_bind
  · apply preserves_openWrite
    · rw [comps]
      exact .inl deep
    · rw [comps]
      exact allows.created _ own
    · rw [comps]
      exact allows.overwritten _ own
  intro _
  apply preserves_bind
  · apply preserves_writeOpened
    rw [comps]
    exact .inl deep
  intro _
  split
  · exact preserves_throw _
  split
  · exact preserves_throw _
  apply preserves_chmod
  · rw [comps]
    exact deep
  rw [comps]
  exact allows.remoded _ own

theorem preserves_copyEntries (package : Text)
    (valid : ∀ entry ∈ entries, pathValid entry.path = true) (offset written : Nat) :
    Preserves (Kept root allowed)
      (copyEntries sha256 package (pathText (root ++ [apps, name, version])) offset written entries) := by
  induction entries generalizing offset written with
  | nil => exact preserves_pure _
  | cons entry entries ih =>
    have first := @preserves_copyOne root allowed name version sha256 hroot hname hversion allows package offset entry
      (valid entry (by simp))
    have rest := ih (fun e he => valid e (by simp [he])) (offset + entry.size) (written + 1)
    rw [copyEntries]
    -- the body of the copy is not looked into from here on
    generalize copyOne sha256 package offset (pathText (root ++ [apps, name, version])) entry = copy at first ⊢
    exact preserves_attempt first (fun _ => rest) (fun _ => preserves_pure _)

theorem preserves_copyFiles (package : Text) (valid : ∀ entry ∈ header.entries, pathValid entry.path = true) :
    Preserves (Kept root allowed) (copyFiles sha256 package header (pathText (root ++ [apps, name, version]))) := by
  have tail := @tail_version name version hname hversion [] (by simp) (by simp) (by simp)
  have here := preserves_makeBelow hroot allows tail
  apply preserves_attempt here _ (fun _ => preserves_pure _)
  intro _
  apply preserves_attempt preserves_willing _ (fun _ => preserves_pure _)
  exact fun _ => preserves_copyEntries hroot hname hversion allows package valid _ _

end

theorem preserves_installHeader {sha256 : Text → Text} (hroot : Root root) (ok : HeaderOk header)
    (noDot : header.version.head? ≠ some 46) (package : Text)
    (allows : Allows root header.name header.version allowed) (removes : Removes root header.name allowed) :
    Preserves (Kept root allowed) (installHeader sha256 (pathText root) package header) := by
  have hname := name_plain ok.name
  obtain ⟨nonempty, short, chars⟩ := nameValid_iff.mp ok.version
  have part : Pkg.Part _ := ⟨chars, short, noDot⟩
  have hversion := part_plain part nonempty
  intro w h
  rw [installHeader, wp_bind]
  apply wp_mono (wp_readDb hroot hname h) _ (fun _ _ kept => kept)
  intro _ w' found
  dsimp only
  rw [versionDirectory_eq hroot hname hversion]
  split
  · exact found.1
  apply preserves_bind (preserves_copyFiles hroot hname hversion allows package ok.entries) _ w' found.1
  intro outcome
  cases outcome.2 with
  | some _ =>
    apply preserves_bind
    · apply preserves_removeEntries hroot hname removes hversion (part_versionName part nonempty)
      exact fun entry member => ok.entries entry (mem_of_mem_take member)
    · exact fun _ => preserves_bind (preserves_removeName hroot hname removes) fun _ => preserves_throw _
  | none =>
    obtain ⟨path, tail⟩ := manifestPath_eq hroot hname hversion
    have comps := components_path hroot tail
    have own := @within_own root header.name header.version [text "MANIFEST"]
    apply preserves_bind
    · rw [path]
      apply preserves_writeAll
      · rw [comps]
        exact .inl (by simp)
      · rw [comps]
        exact allows.created _ own
      · rw [comps]
        exact allows.overwritten _ own
    intro _
    apply preserves_bind
    · apply preserves_writeDb hroot hname _ (allows.created _ within_db) (allows.overwritten _ within_db)
      apply dbText_good part
      intro _ same
      obtain ⟨d, known, rfl⟩ := Option.map_eq_some_iff.mp same
      exact (found.2 d known).1
    intro _
    apply preserves_retire hroot hname removes
    intro version same
    obtain ⟨d, known, before⟩ := Option.bind_eq_some_iff.mp same
    exact (found.2 d known).2 version before

end AerOS.Proof.Pkg
