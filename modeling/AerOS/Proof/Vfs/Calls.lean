import AerOS.Proof.Vfs.Changes

namespace AerOS.Proof.Vfs
open Lib.Action AerOS.Vfs Function

variable {node : NodeId} {α : Type} {σ' : Vfs}
variable {other : NodeId} {β : Type} {err : Fault → Vfs → Prop}

def Makes (C S W : Prop) (T : List (NodeId × Name)) {α : Type} (call : M α) (σ : Vfs) : Prop :=
  wp call (fun _ σ' => Changes C S W T σ σ') (fun _ σ' => Changes C S W T σ σ') σ

section
variable {σ : Vfs} {C S W : Prop} {T : List (NodeId × Name)}

theorem Changes.one (h : Change C S W T σ σ') : Changes C S W T σ σ' := .single h

theorem idle : ∀ fault : Fault, (fun _ σ' => Changes C S W T σ σ' : Fault → Vfs → Prop) fault σ := fun _ => .refl

theorem Makes.after {call : M α} (h : Makes C S W T call σ') (first : Changes C S W T σ σ') :
    wp call (fun _ σ'' => Changes C S W T σ σ'') (fun _ σ'' => Changes C S W T σ σ'') σ' :=
  wp_mono h (fun _ _ rest => first.trans rest) fun _ _ rest => first.trans rest

theorem handleSlot_open {descriptor : UInt32} {slot : HandleSlot} (h : σ.handleSlot descriptor = .ok slot) :
    (σ.handles slot).isOpen = true := by
  unfold handleSlot at h
  split at h
  · dsimp only at h
    split at h
    · rename_i met
      cases h
      exact met.1
    · cases h
  · cases h

theorem openNode_makes {name : NodeId} (live : σ.Live name) : Makes C S W T (openNode (σ.content name)) σ := by
  refine wp_get_bind ?_
  cases found : (List.finRange maxHandles).find? fun slot => !(σ.handles slot).isOpen with
  | none => exact .refl
  | some slot =>
    have free := List.find?_some found
    simp only [Bool.not_eq_true'] at free
    exact .one (.opened slot name _ free live)

section
variable (rooted : Rooted σ)
include rooted

theorem openKind_makes (env : Env) (path : Name) (directory : Bool) :
    Makes C S W T (openKind env path directory) σ := by
  refine wp_get_bind (wp_lift idle fun _ found => ?_)
  refine wp_refuseIf idle fun _ => wp_refuseIf idle fun _ => wp_refuseIf idle fun _ => wp_guard idle ?_
  obtain ⟨_, live, rfl⟩ := resolveFollowing_content rooted.named found
  exact openNode_makes live

theorem createDirectory_makes (env : Env) (path : Name) (mode : UInt16) :
    Makes C S W T (createDirectory env path mode) σ := by
  refine wp_get_bind (wp_lift idle fun _ _ => wp_refuseIf idle fun _ => wp_lift idle ?_)
  rintro ⟨parent, _⟩ -
  refine wp_refuseIf idle fun fresh => wp_guard idle (wp_lift idle fun _ reach => wp_refuseIf idle fun below => ?_)
  refine wp_refuseIf idle fun _ => wp_refuseIf idle fun _ => ?_
  rw [wp_bind]
  refine wp_addNode rooted .refl fun index free => ?_
  refine .one (.added index parent _ σ.files free ?_ rfl ?_ ?_ (.plain rfl rfl))
  · simp [Node.named]
  · exact Option.not_isSome_iff_eq_none.mp fresh
  intro _
  rw [reach]
  simp only [not_or, not_not] at below
  rw [below.1]

theorem wp_addStored {ok : α → Vfs → Prop} {clock : NodeId → Nat} {kind : NodeKind}
    {parent : NodeId} {name : Name} {mode : UInt16} {file : FileId} {record : MutableFile} {value : NodeId → α}
    (nonempty : kind ≠ .empty) (fresh : σ.findChild parent name = none)
    (reach : C → σ.mutableSubtree parent = .ok true) (free : (σ.files file).used = false) (used : record.used = true)
    (hok : ∀ index σ', Changes C S W T σ σ' → σ'.Live index → σ'.content index = index → ok (value index) σ') :
    wp (attempt (addNode clock kind parent name mode [])
        (fun node => do
          setStorage node file
          pure (value node))
        fun fault => do
          modify (·.setFile file .empty)
          throw fault)
      ok (fun _ σ' => Changes C S W T σ σ') (σ.setFile file record) := by
  rw [wp_attempt]
  refine wp_addNode ⟨rooted.root, rooted.bounded⟩ ?_ fun index freeIndex => ?_
  · have same : ((σ.setFile file record).setFile file .empty) = σ.setFile file .empty := by
      simp [setFile]
    refine wp_modify_bind ?_
    rw [same]
    exact .one (.cleared file .empty free rfl)
  have final := Change.added (C := C) (S := S) (W := W) (T := T) (σ := σ) index parent
    { Node.named kind parent name mode [] with modified := clock index, storage := some file }
    (update σ.files file record) ⟨freeIndex.notRoot, freeIndex.notLive⟩ nonempty rfl fresh reach
    (.file rfl rfl free used)
  refine hok index _ (.one ?_) ?_ ?_
  · convert final using 1
    simp [insert, setFile, setNode]
  · simp [Live, setNode, insert, Node.named, nonempty]
  · simp [AerOS.Vfs.content, setNode, insert, Node.named]

theorem wp_createFile (env : Env) (path : Name) (mode : UInt16)
    (confined : C → ∀ parent name, σ.entryOf path = some (parent, name) → σ.mutableSubtree parent = .ok true) :
    wp (createFile env path mode) (fun node σ' => Changes C S W T σ σ' ∧ σ'.Live node ∧ σ'.content node = node)
      (fun _ σ' => Changes C S W T σ σ') σ := by
  refine wp_get_bind (wp_lift idle fun _ parses => wp_refuseIf idle fun nonempty => wp_lift idle ?_)
  rintro ⟨parent, name⟩ resolved
  have entry : σ.entryOf path = some (parent, name) := by
    simp [entryOf, mapError_ok parses, nonempty, mapError_ok resolved]
  refine wp_refuseIf idle fun _ => wp_refuseIf idle fun fresh => wp_guard idle (wp_refuseIf idle fun _ => ?_)
  cases found : σ.freeFile with
  | none => exact .refl
  | some file =>
    have free := freeFile_unused found
    refine wp_modify_bind ?_
    split
    · refine wp_modify_bind ?_
      have same : ((σ.setFile file { MutableFile.empty with used := true }).setFile file .empty) =
          σ.setFile file .empty := by
        simp [setFile]
      rw [same]
      exact .one (.cleared file .empty free rfl)
    · exact wp_addStored rooted (by simp) (by simpa using fresh) (fun c => confined c parent name entry) free rfl
        fun _ σ' changes live content => ⟨changes, live, content⟩

theorem createSymlink_makes (env : Env) (path target : Name) :
    Makes C S W T (createSymlink env path target) σ := by
  refine wp_refuseIf idle fun _ => wp_get_bind (wp_lift idle fun _ _ => wp_refuseIf idle fun _ => wp_lift idle ?_)
  rintro ⟨_, _⟩ -
  refine wp_lift idle fun _ reach => wp_refuseIf idle fun below => wp_refuseIf idle fun _ => ?_
  refine wp_refuseIf idle fun fresh => wp_guard idle ?_
  cases found : σ.freeFile with
  | none => exact .refl
  | some _ =>
    refine wp_modify_bind ?_
    refine wp_addStored rooted (by simp) (by simpa using fresh) (fun _ => ?_) (freeFile_unused found) rfl
      fun _ _ changes _ _ => changes
    rw [reach]
    simp only [not_or, not_not] at below
    rw [below.1]

theorem link_makes (inv : S → Inv σ) (env : Env) (source destination : Name) :
    Makes C S W T (AerOS.Vfs.link env source destination) σ := by
  refine wp_get_bind (wp_lift idle fun found resolves => wp_refuseIf idle fun file => ?_)
  refine wp_lift idle fun _ _ => wp_refuseIf idle fun _ => wp_lift idle fun _ _ => ?_
  refine wp_refuseIf idle fun _ => wp_lift idle ?_
  rintro ⟨parent, name⟩ -
  refine wp_lift idle fun _ parentReach => wp_refuseIf idle fun parentBelow => ?_
  refine wp_refuseIf idle fun fresh => wp_guard idle ?_
  have named := resolve_named rooted.named (mapError_ok resolves)
  have target : S → (σ.nodes (σ.content found)).parent ≠ none := by
    intro s
    unfold AerOS.Vfs.content
    cases linked : (σ.nodes found).link with
    | some target => exact ((inv s).link named.live linked).2.2.2
    | none => exact named.parent
  rw [wp_bind]
  refine wp_addNode rooted .refl fun index free => ?_
  have final := Change.added (C := C) (S := S) (W := W) (T := T) (σ := σ) index parent
    { Node.named .file parent name (σ.nodes (σ.content found)).mode [] with
      modified := env.clock index, link := some (σ.content found) }
    σ.files free (by simp [Node.named]) rfl (Option.not_isSome_iff_eq_none.mp fresh)
    (fun _ => by
      simp only [not_or, not_not] at parentBelow
      rw [parentReach, parentBelow.1])
    (.link rfl rfl (not_not.mp file) (fun s => ((inv s).content named.live).2) target)
  refine .one ?_
  convert final using 1
  simp [insert, setNode]

end

theorem discard_nodes_ne (ne : node ≠ other) : (σ.discard other).nodes node = σ.nodes node := by
  unfold AerOS.Vfs.discard releaseNode
  split
  · simp [setNode, ne]
  · cases (σ.nodes other).storage <;> simp [setNode, setFile, ne]

theorem checked_of_reach {inside : Bool} (reach : σ.mutableSubtree node = .ok inside)
    (below : ¬ (¬ inside = true ∨ isMutableMount (σ.nodes node) = true)) : Checked σ node := by
  obtain ⟨isInside, notMount⟩ := not_or.mp below
  rw [not_not] at isInside
  exact ⟨by rw [reach, isInside], Bool.eq_false_iff.mpr notMount⟩

theorem entry_mem {path : Name} {parsed : List Name} (mem : ∀ entry, σ.entryOf path = some entry → entry ∈ T)
    (parses : parse path = .ok parsed) (nonempty : parsed ≠ []) (resolves : σ.resolve path = .ok node) :
    ∀ parent name, Entry σ parent name node → (parent, name) ∈ T := by
  intro parent name entry
  obtain ⟨parent', name', isEntry, child⟩ := resolve_entry parses nonempty resolves
  have here := findChild_entry child
  have sameParent : parent = parent' := by simpa [here.parent] using entry.parent.symm
  have sameName : name = name' := by rw [← entry.name, here.name]
  rw [sameParent, sameName]
  exact mem _ isEntry

theorem remove_makes (rooted : Rooted σ) (env : Env) (path : Name) (directory : Bool)
    (mem : ∀ entry, σ.entryOf path = some entry → entry ∈ T) : Makes C S W T (remove env path directory) σ := by
  refine wp_get_bind (wp_lift idle fun _ parses => wp_refuseIf idle fun nonempty => ?_)
  refine wp_lift idle fun node resolves => wp_lift idle fun _ reach => wp_refuseIf idle fun below => ?_
  refine wp_guard idle (wp_refuseIf idle fun _ => wp_refuseIf idle fun _ => wp_refuseIf idle fun _ => ?_)
  have named := resolve_named rooted.named (mapError_ok resolves)
  have checked := checked_of_reach reach below
  have touched := entry_mem mem (mapError_ok parses) nonempty (mapError_ok resolves)
  split
  · rename_i linked
    exact .one (.unlinked node checked named.live touched linked)
  rename_i plain
  cases found : σ.heir node with
  | some heir => exact .one (.inherited node heir checked touched (not_not.mp plain) found)
  | none =>
    refine wp_refuseIf idle fun _ => ?_
    exact .one (.removed node checked named.live touched found)

theorem wp_checkReplaced {ok : β → Vfs → Prop} {source : Node}
    {f : Unit → M β} (herr : ∀ fault, err fault σ) (h : wp (f ()) ok err σ) :
    wp (forEach [other] (σ.checkReplaced source) >>= f) ok err σ := by
  rw [wp_bind, wp_forEach_cons]
  refine wp_refuseIf herr fun _ => wp_refuseIf herr fun _ => wp_refuseIf herr fun _ => ?_
  unfold refuseIf
  split
  · exact herr _
  · exact h

def moved (σ : Vfs) (node parent : NodeId) (name : Name) : Vfs :=
  σ.setNode node { σ.nodes node with parent := some parent, name := name }

inductive Arrives (σ : Vfs) (node parent : NodeId) (name : Name) : Vfs → Prop where
  | there : σ.findChild parent name = some node → Arrives σ node parent name σ
  | moved : σ.Live node → Arrives σ node parent name (moved σ node parent name)
  | replaced {other : NodeId} : σ.Live node → σ.findChild parent name = some other → other ≠ node →
      Arrives σ node parent name (moved (σ.discard other) node parent name)

theorem renameWith_makes (rooted : Rooted σ) (env : Env) (source destination : Name) (noreplace : Bool)
    (memSource : ∀ entry, σ.entryOf source = some entry → entry ∈ T)
    (memDestination : ∀ entry, σ.entryOf destination = some entry → entry ∈ T)
    (spares : S → ∀ parent name replaced, σ.entryOf destination = some (parent, name) →
      σ.findChild parent name = some replaced → σ.resolve source ≠ .ok replaced → σ.heir replaced = none) :
    wp (renameWith env source destination noreplace)
      (fun _ σ' => Changes C S W T σ σ' ∧ ∃ node parent name, σ.resolve source = .ok node ∧
        σ.entryOf destination = some (parent, name) ∧ Arrives σ node parent name σ')
      (fun _ σ' => Changes C S W T σ σ') σ := by
  refine wp_get_bind (wp_lift idle fun _ parsesSource => wp_lift idle fun _ parses => ?_)
  refine wp_refuseIf idle fun nonempty => wp_lift idle fun node resolves => wp_lift idle fun _ reach => ?_
  refine wp_refuseIf idle fun below => ?_
  obtain ⟨sourceNonempty, nonempty⟩ := not_or.mp nonempty
  replace resolves := mapError_ok resolves
  have named := resolve_named rooted.named resolves
  have checked := checked_of_reach reach below
  have touched := entry_mem memSource (mapError_ok parsesSource) sourceNonempty resolves
  cases hasParent : (σ.nodes node).parent with
  | none => exact .refl
  | some _ =>
    refine wp_refuseIf idle fun _ => wp_lift idle ?_
    rintro ⟨parent, name⟩ walk
    have isEntry : σ.entryOf destination = some (parent, name) := by
      simp [entryOf, mapError_ok parses, nonempty, mapError_ok walk]
    refine wp_guard idle (wp_guard idle (wp_lift idle fun _ parentReach => ?_))
    refine wp_refuseIf idle fun parentBelow => wp_refuseIf idle fun _ => ?_
    replace parentReach : σ.mutableSubtree parent = .ok true := by
      rw [parentReach, not_not.mp (not_or.mp parentBelow).1]
    by_cases same : σ.findChild parent name = some node
    · rw [if_pos same]
      exact ⟨.refl, node, parent, name, resolves, isEntry, .there same⟩
    rw [if_neg same]
    refine wp_refuseIf idle fun _ => ?_
    cases found : σ.findChild parent name with
    | none =>
      refine wp_lift idle fun _ _ => ?_
      exact ⟨.one (.renamed node parent name checked named.live touched parentReach found),
        node, parent, name, resolves, isEntry, .moved named.live⟩
    | some other =>
      have ne : other ≠ node := by
        rintro rfl
        exact same found
      have notSource : σ.resolve source ≠ .ok other := by
        rw [resolves]
        simpa using ne.symm
      refine wp_checkReplaced idle (wp_lift idle fun _ _ => ?_)
      have final := Change.replaced (C := C) (S := S) (W := W) (T := T) node parent other name checked named.live
        touched parentReach found ne (memDestination _ isEntry)
        fun s => spares s parent name other isEntry found notSource
      have kept := discard_nodes_ne (σ := σ) ne.symm
      simp only [Option.toList_some]
      rw [wp_bind, wp_forEach_cons, wp_modify, wp_forEach_nil, wp_modify]
      have there := @Arrives.replaced σ node parent name other named.live found ne
      rw [moved] at there
      rw [kept] at there ⊢
      exact ⟨.one final, node, parent, name, resolves, isEntry, there⟩

theorem setMode_makes (mode : UInt16) (reach : σ.mutableSubtree node = .ok true)
    (below : C → isMutableMount (σ.nodes node) = false) : Makes C S W T (setMode node mode) σ :=
  .one (.moded node _ reach below)

theorem chmod_makes (env : Env) (path : Name) (mode : UInt16) : Makes C S W T (chmod env path mode) σ := by
  refine wp_get_bind (wp_lift idle fun _ _ => wp_lift idle fun _ reach => wp_refuseIf idle fun below => ?_)
  have checked := checked_of_reach reach below
  exact wp_guard idle (setMode_makes mode checked.1 fun _ => checked.2)

theorem fchmod_makes (env : Env) (descriptor : UInt32) (mode : UInt16)
    (confined : C → ∀ slot, σ.handleSlot descriptor = .ok slot → isMutableMount (σ.nodes (σ.handles slot).node) = false) :
    Makes C S W T (fchmod env descriptor mode) σ := by
  refine wp_get_bind (wp_lift idle fun slot found => wp_lift idle fun _ reach => wp_refuseIf idle fun below => ?_)
  refine wp_guard idle (setMode_makes mode ?_ fun c => confined c slot found)
  rw [reach, not_not.mp below]

theorem reserve_used {env : Env} {file reserved : MutableFile} {bytes limit : Nat}
    (h : reserve env file bytes limit = .ok reserved) : reserved.used = file.used := by
  unfold reserve at h
  dsimp only at h
  split_ifs at h <;> cases h <;> rfl

theorem truncate_makes (w : W) (env : Env) (descriptor : UInt32) (length : Nat) :
    Makes C S W T (truncate env descriptor length) σ := by
  refine wp_refuseIf idle fun _ => wp_get_bind (wp_lift idle fun slot _ => wp_refuseIf idle fun _ => ?_)
  cases hasFile : (σ.nodes (σ.handles slot).node).storage with
  | none => exact .refl
  | some file =>
    have stamped : Changes C S W T σ (σ.touch (σ.handles slot).node (env.clock (σ.handles slot).node)) :=
      .one (.stamped _ _ (by simp [hasFile]))
    refine wp_modify_bind (wp_guard (fun _ => stamped) (wp_refuseIf (fun _ => stamped) fun _ => ?_))
    refine wp_lift (fun _ => stamped) fun _ room => ?_
    have used := reserve_used room
    exact stamped.tail (.written file _ w used)

theorem wp_writeBytes {ok : β → Vfs → Prop} {env : Env} {stored : Node}
    {file : FileId} {start : Nat} {source : List UInt8} {f : Unit → M β} (herr : ∀ fault, err fault σ')
    (h : ∀ record : MutableFile, record.used = (σ.files file).used → wp (f ()) ok err (σ'.setFile file record)) :
    wp (writeBytes env σ stored file start source >>= f) ok err σ' := by
  rw [wp_bind]
  refine wp_refuseIf herr fun _ => wp_lift herr fun _ room => ?_
  have used := reserve_used room
  exact h _ used

theorem write_makes (w : W) (env : Env) (descriptor : UInt32) (source : List UInt8) (append : Bool) :
    Makes C S W T (write env descriptor source append) σ := by
  refine wp_get_bind (wp_lift idle fun slot _ => ?_)
  dsimp only
  cases hasFile : (σ.nodes (σ.handles slot).node).storage with
  | none => exact .refl
  | some file =>
    have stamped : Changes C S W T σ (σ.touch (σ.handles slot).node (env.clock (σ.handles slot).node)) :=
      .one (.stamped _ _ (by simp [hasFile]))
    refine wp_modify_bind (wp_refuseIf (fun _ => stamped) fun _ => ?_)
    refine wp_writeBytes (fun _ => stamped) fun record used => ?_
    exact (stamped.tail (.written file record w used)).tail (.sought slot _)

theorem writeAt_makes (w : W) (env : Env) (descriptor : UInt32) (offset : Nat) (source : List UInt8) :
    Makes C S W T (writeAt env descriptor offset source) σ := by
  refine wp_get_bind (wp_lift idle fun slot _ => ?_)
  dsimp only
  cases (σ.nodes (σ.handles slot).node).storage with
  | none => exact .refl
  | some file =>
    refine wp_refuseIf idle fun _ => wp_writeBytes idle fun record used => ?_
    exact .one (.written file record w used)

theorem wp_findOrCreate (rooted : Rooted σ) (env : Env) (path : Name) (create exclusive : Bool) (mode : UInt16)
    (confined : C → create = true → σ.resolveFollowing path = .error (.refused .notFound) →
      ∀ parent name, σ.entryOf path = some (parent, name) → σ.mutableSubtree parent = .ok true) :
    wp (findOrCreate env path create exclusive mode)
      (fun node σ' => Changes C S W T σ σ' ∧ ∃ name, σ'.Live name ∧ node = σ'.content name)
      (fun _ σ' => Changes C S W T σ σ') σ := by
  refine wp_get_bind ?_
  split
  · rename_i node found
    refine wp_refuseIf idle fun _ => ?_
    exact ⟨.refl, resolveFollowing_content rooted.named found⟩
  · rename_i missing
    split
    · rename_i creates
      refine wp_mono (wp_createFile rooted env path mode fun c => confined c creates missing) ?_ fun _ _ h => h
      rintro node σ' ⟨changes, live, same⟩
      exact ⟨changes, node, live, same.symm⟩
    · exact .refl
  · exact .refl

theorem openFile_makes (rooted : Rooted σ) (env : Env) (path : Name) (create exclusive cut : Bool) (mode : UInt16)
    (write : Bool) (w : cut = true → W)
    (confined : C → create = true → σ.resolveFollowing path = .error (.refused .notFound) →
      ∀ parent name, σ.entryOf path = some (parent, name) → σ.mutableSubtree parent = .ok true) :
    Makes C S W T (openFile env path create exclusive cut mode write) σ := by
  unfold Makes openFile
  rw [wp_bind]
  refine wp_mono (wp_findOrCreate rooted env path create exclusive mode confined) ?_ fun _ _ h => h
  rintro _ σ' ⟨changes, name, live, rfl⟩
  have here : ∀ fault : Fault, (fun _ σ'' => Changes C S W T σ σ'' : Fault → Vfs → Prop) fault σ' := fun _ => changes
  refine wp_get_bind (wp_refuseIf here fun _ => wp_guard here ?_)
  refine wp_refuseIf here fun _ => wp_refuseIf here fun _ => ?_
  split
  · exact changes
  · rename_i file hasFile
    refine wp_modify_bind ?_
    have cleared := changes.tail (.written file { σ'.files file with content := [], big := none } (w rfl) rfl)
    exact Makes.after (openNode_makes (σ := σ'.setFile file _) live) cleared
  · exact Makes.after (openNode_makes live) changes

theorem Makes.void {call : M α} (h : Makes C S W T call σ) : Makes C S W T (do let _ ← call) σ := by
  unfold Makes
  rw [wp_bind]
  exact h

section
variable (rooted : Rooted σ) (inv : S → Inv σ) (env : Env) (op : Op)
  (notClose : ∀ descriptor, op ≠ .close descriptor)
include rooted inv env op notClose

theorem perform_makes :
    Makes (Confined σ (env, op)) (S ∧ Spares σ (env, op)) (¬ op.OnNames) (op.entries σ) (perform env op) σ := by
  cases op with
  | openFile path create exclusive cut mode write =>
    refine Makes.void (openFile_makes rooted env path create exclusive cut mode write ?_ ?_)
    · rintro rfl
      simp [Op.OnNames]
    rintro confined rfl missing parent name entry
    exact confined parent name missing entry
  | openKind path directory => exact Makes.void (openKind_makes rooted env path directory)
  | close descriptor => exact (notClose descriptor rfl).elim
  | createDirectory path mode => exact createDirectory_makes rooted env path mode
  | createSymlink path target => exact createSymlink_makes rooted env path target
  | link source destination => exact link_makes rooted (fun s => inv s.1) env source destination
  | remove path directory =>
    refine remove_makes rooted env path directory fun entry found => ?_
    simp [Op.entries, found]
  | rename source destination noreplace =>
    refine wp_mono (renameWith_makes rooted env source destination noreplace ?_ ?_ ?_) (fun _ _ h => h.1) fun _ _ h => h
    · intro entry found
      simp [Op.entries, found]
    · intro entry found
      simp [Op.entries, found]
    · intro spares
      exact spares.2
  | chmod path mode => exact chmod_makes env path mode
  | fchmod descriptor mode => exact fchmod_makes env descriptor mode fun confined => confined
  | truncate descriptor length => exact truncate_makes (by simp [Op.OnNames]) env descriptor length
  | write descriptor source append =>
    exact Makes.void (write_makes (by simp [Op.OnNames]) env descriptor source append)
  | writeAt descriptor offset source =>
    exact Makes.void (writeAt_makes (by simp [Op.OnNames]) env descriptor offset source)
  | read => exact Makes.void (wp_get_bind (wp_lift idle fun slot found => .one (.sought slot _)))
  | seek =>
    refine Makes.void (wp_get_bind (wp_lift idle fun slot found => wp_refuseIf idle fun _ => wp_refuseIf idle fun _ => ?_))
    exact .one (.sought slot _)

theorem perform_changes :
    Changes (Confined σ (env, op)) (S ∧ Spares σ (env, op)) (¬ op.OnNames) (op.entries σ) σ (step σ (env, op)) := by
  have made := perform_makes rooted inv env op notClose
  unfold Makes wp at made
  unfold step
  split at made <;> simp_all

end

end

end AerOS.Proof.Vfs
