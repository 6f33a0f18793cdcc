import AerOS.Proof.Vfs.Names

namespace AerOS.Proof.Vfs
open Lib Lib.Action AerOS.Vfs Function

variable {file : FileId} {name : Name} {data index : NodeId}
variable {node : Node} {files : FileId → MutableFile} {parent : NodeId}

structure IsData (σ : Vfs) (data : NodeId) : Prop where
  notRoot : data ≠ rootNode
  entry : Entry σ rootNode (ascii "data") data

structure Mounting (σ : Vfs) : Prop extends Inv σ where
  noLinks : ∀ {node}, σ.Live node → (σ.nodes node).link = none
  onlyData : ∀ {node}, σ.Live node → (σ.nodes node).storage ≠ none →
    ∃ data, IsData σ data ∧ (σ.nodes node).parent = some data

theorem new_mounting : Mounting new := by
  have only : ∀ {node}, new.Live node → node = rootNode := by
    intro node live
    by_contra ne
    simp [Live, new, ne, Node.empty] at live
  have root : new.nodes rootNode = .root := by simp [new]
  have shut : ∀ slot, (new.handles slot).isOpen = false := fun _ => rfl
  have free : ∀ file, (new.files file).used = false := fun _ => rfl
  refine ⟨⟨⟨⟨root, ?_⟩, ?_, ?_, ?_, ?_, ?_⟩, ?_, ?_⟩, ?_, ?_⟩
  · intro node live
    simp [only live, rootNode, new]
  · intro _ _ node other entry entry'
    rw [only entry.live, only entry'.live]
  · intro node _ live linked
    rw [only live, root] at linked
    cases linked
  · intro node file live stored
    rw [only live, root] at stored
    cases stored
  · intro node other file live live' _ _
    rw [only live, only live']
  · intro file used
    cases used
  · intro slot isOpen
    cases isOpen
  · intro node live isOrphan
    rw [only live, root] at isOrphan
    cases isOrphan
  · intro node live
    rw [only live, root]
    rfl
  · intro node live stored
    rw [only live, root] at stored
    exact (stored rfl).elim

variable {σ : Vfs}

theorem IsData.insert (isData : IsData σ data)
    (free : Free σ index) : IsData { insert σ index node with files := files } data := by
  exact ⟨isData.notRoot, isData.entry.congr (insert_nodes_ne (free.ne isData.entry.live))⟩

section
variable (m : Mounting σ)
include m

theorem Mounting.added
    (free : Free σ index) (isParent : node.parent = some parent) (fresh : σ.findChild parent node.name = none)
    (attached : Attached True σ node files) (nonempty : node.kind ≠ .empty) (noLink : node.link = none)
    (place : node.storage ≠ none → IsData σ parent) : Mounting { insert σ index node with files := files } := by
  refine ⟨added_inv m.toInv free isParent fresh trivial attached nonempty, ?_, ?_⟩
  · intro other live
    by_cases here : other = index
    · simp [insert, here, noLink]
    rw [insert_nodes_ne here]
    exact m.noLinks (insert_live live here)
  intro other live stored
  by_cases here : other = index
  · subst here
    simp only [insert, update_self] at stored ⊢
    exact ⟨parent, (place stored).insert free, isParent⟩
  rw [insert_nodes_ne here] at stored ⊢
  obtain ⟨data, isData, isParent⟩ := m.onlyData (insert_live live here) stored
  exact ⟨data, isData.insert free, isParent⟩

theorem Mounting.loaded (mode : UInt16)
    (isData : IsData σ data) (free : Free σ index) (stamp : Nat) (fresh : σ.findChild data name = none)
    (freeFile : (σ.files file).used = false) (record : MutableFile) (used : record.used = true) :
    let node := { Node.named .file data name mode [] with modified := stamp, storage := some file }
    Mounting { insert σ index node with files := update σ.files file record } ∧
      IsData { insert σ index node with files := update σ.files file record } data := by
  refine ⟨m.added free rfl fresh (.file rfl rfl freeFile used) ?_ rfl fun _ => isData, isData.insert free⟩
  simp [Node.named]

theorem Mounting.cleared (free : (σ.files file).used = false) : Mounting (σ.setFile file .empty) := by
  have alike : Alike σ (σ.setFile file .empty) := .setFile m.toInv (by rw [free]; rfl)
  refine ⟨alike.inv m.toInv, fun live => m.noLinks live, fun live stored => ?_⟩
  obtain ⟨data, isData, isParent⟩ := m.onlyData live stored
  exact ⟨data, ⟨isData.notRoot, isData.entry.congr rfl⟩, isParent⟩

end

section
variable {clock : NodeId → Nat}

theorem addNode_mounting (m : Mounting σ) {kind : NodeKind} {mode : UInt16}
    {data : List UInt8} (nonempty : kind ≠ .empty) (fresh : ¬ (σ.findChild parent name).isSome = true) :
    wp (addNode clock kind parent name mode data) (fun _ σ' => Mounting σ') (fun _ σ' => Mounting σ') σ := by
  refine wp_addNode m.toRooted m fun _ free => ?_
  have none := Option.not_isSome_iff_eq_none.mp fresh
  exact m.added free rfl none (.plain rfl rfl) nonempty rfl fun stored => (stored rfl).elim

theorem mountDirectory_mounting (path : Name) (mode : UInt16) : Preserves Mounting (mountDirectory clock path mode) := by
  intro σ m
  have here : ∀ _ : Fault, Mounting σ := fun _ => m
  refine wp_get_bind (wp_lift here fun _ _ => wp_refuseIf here fun _ => wp_lift here ?_)
  rintro ⟨_, _⟩ -
  refine wp_refuseIf here fun fresh => ?_
  rw [wp_bind]
  exact addNode_mounting m (by simp) fresh

theorem mountParents_mounting (parent : NodeId) (components : List Name) :
    Preserves Mounting (mountParents clock parent components) := by
  induction components generalizing parent with
  | nil => exact preserves_pure parent
  | cons component _ ih =>
    intro σ m
    refine wp_get_bind ?_
    cases found : σ.findChild parent component with
    | some index => exact wp_refuseIf (fun _ => m) fun _ => ih index σ m
    | none =>
      rw [wp_bind]
      exact wp_mono (addNode_mounting m (by simp) (by simp [found])) (fun index σ' m' => ih index σ' m') fun _ _ h => h

theorem mountFile_mounting (entry : InitramfsEntry) : Preserves Mounting (mountFile clock entry) := by
  intro σ m
  have here : ∀ _ : Fault, Mounting σ := fun _ => m
  refine wp_lift here fun parsed _ => wp_refuseIf here fun _ => ?_
  rw [wp_bind]
  refine wp_mono (mountParents_mounting rootNode parsed.dropLast σ m) (fun _ _ m' => ?_) fun _ _ h => h
  refine wp_get_bind (wp_refuseIf (fun _ => m') fun fresh => ?_)
  rw [wp_bind]
  exact addNode_mounting m' (by simp) fresh

theorem loadFile_mounting (fat : Fat) {short : Name} (bytes : Nat) (m : Mounting σ)
    (isData : IsData σ data) (fresh : σ.findChild data name = none) (free : (σ.files file).used = false) :
    wp (loadFile clock fat data file name short bytes) (fun _ σ' => Mounting σ' ∧ IsData σ' data)
      (fun _ σ' => Mounting σ') σ := by
  refine wp_modify_bind ?_
  rw [wp_attempt]
  refine wp_addNode ⟨m.root, m.bounded⟩ ?_ fun index freeIndex => ?_
  · have same : ((σ.setFile file { MutableFile.empty with used := true }).setFile file .empty) = σ.setFile file .empty := by
      simp [setFile]
    rw [wp_modify, same]
    exact ⟨m.cleared free, isData.notRoot, isData.entry.congr rfl⟩
  refine wp_modify_bind ?_
  have both := m.loaded 0o644 isData ⟨freeIndex.notRoot, freeIndex.notLive⟩ (clock index) fresh free
    ⟨true, ((fat.contents short).getD []).take (min bytes mutableFileBytes), none⟩ rfl
  convert both using 3
  simp [insert, setFile, setNode]

theorem loadFiles_mounting (fat : Fat) (files : List (Name × Nat)) (m : Mounting σ) (isData : IsData σ data) :
    wp (loadFiles clock fat data files) (fun _ σ' => Mounting σ' ∧ IsData σ' data) (fun _ σ' => Mounting σ') σ := by
  induction files generalizing σ with
  | nil => exact ⟨m, isData⟩
  | cons entry _ ih =>
    obtain ⟨short, bytes⟩ := entry
    refine wp_get_bind ?_
    cases shortNameToVfs short with
    | none => exact ih m isData
    | some _ =>
      dsimp only
      split
      · exact ih m isData
      rename_i fresh
      cases found : σ.freeFile with
      | none => exact ⟨m, isData⟩
      | some _ =>
        rw [wp_bind]
        exact wp_mono (loadFile_mounting fat bytes m isData (Option.not_isSome_iff_eq_none.mp fresh) (freeFile_unused found))
          (fun _ σ' h => ih h.1 h.2) fun _ _ h => h

theorem loadDirectories_mounting (data : NodeId) (directories : List Name) :
    Preserves Mounting (loadDirectories clock data directories) := by
  induction directories with
  | nil => exact preserves_pure ()
  | cons short _ ih =>
    intro σ m
    refine wp_get_bind ?_
    cases shortDirNameToVfs short with
    | none => exact ih σ m
    | some _ =>
      dsimp only
      split
      · exact ih σ m
      rename_i fresh
      rw [wp_bind, wp_attempt]
      exact wp_mono (addNode_mounting m (by simp) fresh) (fun _ σ' m' => ih σ' m') fun _ σ' m' => ih σ' m'

theorem loadPersistedFiles_mounting (fat : Fat) : Preserves Mounting (loadPersistedFiles clock fat) := by
  intro σ m
  refine wp_get_bind ?_
  cases found : σ.dataNode with
  | none => exact m
  | some data =>
    have entry := findChild_entry found
    have notRoot : data ≠ rootNode := by
      rintro rfl
      have isName := entry.name
      rw [m.root] at isName
      simp [Node.root, ascii] at isName
    rw [wp_bind]
    refine wp_mono (loadFiles_mounting fat _ m ⟨notRoot, entry⟩) (fun _ σ' h => ?_) fun _ _ h => h
    split
    · exact loadDirectories_mounting data _ σ' h.1
    · exact h.1

theorem mount_mounting (fat : Fat) (entries : List InitramfsEntry) : Preserves Mounting (mount clock fat entries) := by
  refine preserves_bind (preserves_forEach fun entry _ => mountFile_mounting entry) fun _ => ?_
  refine preserves_bind (preserves_forEach fun point _ => mountDirectory_mounting point.1 point.2) fun _ => ?_
  exact loadPersistedFiles_mounting fat

theorem mounted_mounting (clock : NodeId → Nat) (fat : Fat) (entries : List InitramfsEntry) :
    Mounting (mounted clock fat entries) := by
  have h := @mount_mounting clock fat entries new new_mounting
  unfold wp at h
  unfold mounted
  split at h <;> simp_all

end

variable {other : HandleSlot} {node : NodeId}

section
variable {C S W : Prop} {T : List (NodeId × Name)} {σ σ' : Vfs}

theorem reach_notRoot (root : σ.nodes rootNode = .root) (reach : σ.mutableSubtree node = .ok true) :
    node ≠ rootNode := by
  rintro rfl
  have turns : maxNodes = 2047 + 1 := rfl
  simp [mutableSubtree, turns, mutableSubtreeIn, root, Node.root, isMutableMount, ascii] at reach

theorem change_keeps (inv : Inv σ) (s : S) (change : Change C S W T σ σ') : Inv σ' ∧ Keeps W T σ σ' := by
  cases change with
  | moded node mode reach =>
    have alike : Alike σ (σ.setNode node { σ.nodes node with mode := mode }) :=
      .setNode inv (reach_notRoot inv.root reach) rfl rfl rfl rfl rfl rfl
    exact ⟨alike.inv inv, alike.keeps inv fun _ _ _ => rfl⟩
  | stamped node now stored =>
    have notRoot : node ≠ rootNode := by
      rintro rfl
      simp [inv.root, Node.root] at stored
    have alike : Alike σ (σ.touch node now) := .setNode inv notRoot rfl rfl rfl rfl rfl rfl
    exact ⟨alike.inv inv, alike.keeps inv fun _ _ _ => rfl⟩
  | written slot file w used =>
    have alike : Alike σ (σ.setFile slot file) := .setFile inv used
    exact ⟨alike.inv inv, alike.keeps inv fun notW => (notW w).elim⟩
  | cleared slot file free unused =>
    have alike : Alike σ (σ.setFile slot file) := .setFile inv (by rw [free, unused])
    refine ⟨alike.inv inv, alike.keeps inv fun _ other used => ?_⟩
    have apart : other ≠ slot := by
      rintro rfl
      simp [free] at used
    simp [setFile, apart]
  | added _ parent node _ free nonempty isParent fresh _ attached =>
    exact ⟨added_inv inv free isParent fresh s attached nonempty, added_keeps inv free attached⟩
  | unlinked node checked live touched linked =>
    have notRoot := reach_notRoot inv.root checked.1
    have unlinked := heir_link inv linked
    obtain ⟨_, isLink⟩ := Option.ne_none_iff_exists'.mp linked
    rw [← show σ.discard node = σ.setNode node .empty by
      simp [AerOS.Vfs.discard, inv.unopened linked, releaseNode, (inv.link live isLink).1]]
    exact ⟨discard_inv inv live notRoot unlinked, discard_keeps inv live unlinked touched⟩
  | removed node checked live touched unlinked =>
    have notRoot := reach_notRoot inv.root checked.1
    exact ⟨discard_inv inv live notRoot unlinked, discard_keeps inv live unlinked touched⟩
  | inherited node _ checked touched plain found =>
    have notRoot := reach_notRoot inv.root checked.1
    exact ⟨inherit_inv inv notRoot plain found, inherit_keeps inv plain found touched⟩
  | renamed node parent name checked live touched _ fresh =>
    have notRoot := reach_notRoot inv.root checked.1
    exact ⟨moved_inv inv notRoot fun other => findChild_none inv.bounded fresh, placed_keeps touched⟩
  | replaced node parent other name checked live touched reach found ne mem spares =>
    have entry := findChild_entry found
    have otherNotRoot : other ≠ rootNode := by
      rintro rfl
      have isRoot := entry.parent
      rw [inv.root] at isRoot
      exact reach_notRoot inv.root reach (Option.some.inj isRoot).symm
    have unlinked := spares s
    have inv' := discard_inv inv entry.live otherNotRoot unlinked
    have record := discard_nodes_ne (σ := σ) ne.symm
    have fresh : ∀ one, ¬ Entry (σ.discard other) parent name one := by
      intro one entry'
      by_cases here : one = other
      · subst here
        have gone := entry'.parent
        have live := entry'.live
        unfold AerOS.Vfs.discard at gone live
        split at gone
        · simp [setNode] at gone
        rename_i unused
        rw [if_neg unused] at live
        exact (releaseNode_live live).1 rfl
      exact here (inv.unique (entry'.congr (discard_nodes_ne here).symm) entry)
    have touched' : ∀ parent name, Entry (σ.discard other) parent name node → (parent, name) ∈ T :=
      fun parent name entry' => touched parent name (entry'.congr record.symm)
    have mine : ∀ parent' name', Entry σ parent' name' other → (parent', name') ∈ T := by
      intro parent' name' entry'
      have sameParent : parent' = parent := by simpa [entry.parent] using entry'.parent.symm
      have sameName : name' = name := by rw [← entry'.name, entry.name]
      rw [sameParent, sameName]
      exact mem
    have first : Keeps W T σ (σ.discard other) := discard_keeps inv entry.live unlinked mine
    have same : (σ.discard other).setNode node { σ.nodes node with parent := some parent, name := name } =
        moved (σ.discard other) node parent name := by
      rw [moved, record]
    rw [same]
    exact ⟨moved_inv inv' (reach_notRoot inv.root checked.1) fresh, first.trans (placed_keeps touched')⟩
  | opened slot name _ free live => exact ⟨opened_inv inv free live, opened_keeps free⟩
  | sought slot cursor =>
    have alike : Alike σ (σ.setHandle slot { σ.handles slot with cursor := cursor }) := .setHandle inv
    exact ⟨alike.inv inv, alike.keeps inv fun _ _ _ => rfl⟩

theorem changes_keep (inv : Inv σ) (s : S) (changes : Changes C S W T σ σ') : Inv σ' ∧ Keeps W T σ σ' := by
  induction changes with
  | refl => exact ⟨inv, .refl⟩
  | tail _ last ih =>
    obtain ⟨inv', keeps'⟩ := change_keeps ih.1 s last
    exact ⟨inv', ih.2.trans keeps'⟩

def closed (σ : Vfs) (slot : HandleSlot) (generation : Nat) : Vfs :=
  let σ' := σ.setHandle slot ⟨(σ.handles slot).node, generation, 0, false⟩
  if (σ.nodes (σ.handles slot).node).parent = none ∧ ¬ σ'.inUse (σ.handles slot).node then
    σ'.releaseNode (σ.handles slot).node
  else σ'

theorem step_close (env : Env) (descriptor : UInt32) : step σ (env, .close descriptor) = σ ∨
      ∃ slot generation, (σ.handles slot).isOpen = true ∧
        step σ (env, .close descriptor) = closed σ slot generation := by
  rw [step, perform]
  cases found : σ.handleSlot descriptor with
  | error _ =>
    left
    simp [close, bind, Action.bind, Action.get, found, lift, Action.throw]
  | ok slot =>
    right
    refine ⟨slot, max (((σ.handles slot).generation + 1) % 0x4000) 1, handleSlot_open found, ?_⟩
    simp [close, bind, Action.bind, Action.get, found, lift, pure, Action.pure, Action.modify, closed, setHandle]

section closing
variable {slot : HandleSlot} {generation : Nat}

theorem setHandle_other {handle : OpenHandle} (ne : other ≠ slot) :
    (σ.setHandle slot handle).handles other = σ.handles other := by
  simp [setHandle, ne]

theorem closing_open
    (isOpen : ((σ.setHandle slot ⟨node, generation, 0, false⟩).handles other).isOpen = true) : other ≠ slot := by
  rintro rfl
  simp [setHandle] at isOpen

theorem heir_orphan (core : Core σ) (isOrphan : (σ.nodes node).parent = none) : σ.heir node = none := by
  cases found : σ.heir node with
  | none => rfl
  | some heir =>
    obtain ⟨live, linked⟩ := heir_some found
    exact ((core.link live linked).2.2.2 isOrphan).elim

section
variable (inv : Inv σ) (isOpen : (σ.handles slot).isOpen = true)
include inv isOpen

theorem closed_inv : Inv (closed σ slot generation) := by
  obtain ⟨live, _⟩ := inv.handle isOpen
  unfold closed
  generalize isNode : (σ.handles slot).node = node at live ⊢
  have core : Core (σ.setHandle slot ⟨node, generation, 0, false⟩) := inv.toCore.setHandle
  have used : ∀ {other}, other ≠ node → σ.Live other → (σ.nodes other).parent = none →
      (σ.setHandle slot ⟨node, generation, 0, false⟩).inUse other = true := by
    intro other ne live isOrphan
    obtain ⟨slot', isOpen', opens⟩ := inUse_iff.mp (inv.orphan live isOrphan)
    have apart : slot' ≠ slot := by
      rintro rfl
      exact ne (opens.symm.trans isNode)
    exact inUse_iff.mpr
      ⟨slot', by rw [setHandle_other apart]; exact isOpen', by rw [setHandle_other apart]; exact opens⟩
  dsimp only
  split
  · rename_i last
    have notRoot : node ≠ rootNode := by
      rintro rfl
      simp [inv.root, Node.root] at last
    have unlinked : (σ.setHandle slot ⟨node, generation, 0, false⟩).heir node = none := heir_orphan core last.1
    refine ⟨core.release live notRoot unlinked, ?_, ?_⟩
    · intro other isOpen'
      rw [releaseNode_handles] at isOpen' ⊢
      have ne : ((σ.setHandle slot ⟨node, generation, 0, false⟩).handles other).node ≠ node := fun same =>
        last.2 (inUse_iff.mpr ⟨other, isOpen', same⟩)
      have apart := closing_open isOpen'
      rw [Live, releaseNode_record ne]
      rw [setHandle_other apart] at isOpen' ⊢
      exact inv.handle isOpen'
    intro other live' isOrphan
    obtain ⟨ne, old⟩ := releaseNode_live live'
    rw [releaseNode_record ne] at isOrphan
    rw [inUse_release]
    exact used ne old isOrphan
  · rename_i stays
    refine ⟨core, ?_, ?_⟩
    · intro other isOpen'
      have apart := closing_open isOpen'
      rw [setHandle_other apart] at isOpen' ⊢
      exact inv.handle isOpen'
    intro other live' isOrphan
    by_cases here : other = node
    · by_contra unused
      exact stays ⟨here ▸ isOrphan, here ▸ unused⟩
    exact used here live' isOrphan

theorem closed_entry {parent : NodeId} {name : Name}
    (entry : Entry σ parent name node) : ∃ node', Entry (closed σ slot generation) parent name node' ∧
      (closed σ slot generation).content node' = σ.content node ∧ Same W σ (closed σ slot generation) (σ.content node) := by
  obtain ⟨live, _⟩ := inv.handle isOpen
  unfold closed
  dsimp only
  split
  · rename_i last
    have ne : node ≠ (σ.handles slot).node := by
      rintro same
      have isParent := entry.parent
      rw [same, last.1] at isParent
      cases isParent
    obtain ⟨node', entry', content, same⟩ := release_entry (W := W) inv.toCore.setHandle live
      (heir_orphan inv.toCore.setHandle last.1) (entry.congr rfl) ne
    exact ⟨node', entry', content, same.place, same.bytes⟩
  · exact ⟨node, (entry.congr rfl), rfl, rfl, fun _ => rfl⟩

theorem closed_handle
    (before : (σ.handles other).isOpen = true) (after : ((closed σ slot generation).handles other).isOpen = true) :
    ((closed σ slot generation).handles other).node = (σ.handles other).node ∧
      Same W σ (closed σ slot generation) (σ.handles other).node := by
  obtain ⟨live, _⟩ := inv.handle isOpen
  unfold closed at after ⊢
  dsimp only at after ⊢
  split at after
  · rename_i last
    rw [if_pos last]
    rw [releaseNode_handles] at after ⊢
    have apart := closing_open after
    rw [setHandle_other apart]
    refine ⟨rfl, ?_⟩
    have ne : (σ.handles other).node ≠ (σ.handles slot).node := fun same =>
      last.2 (inUse_iff.mpr ⟨other, by rw [setHandle_other apart]; exact before, by rw [setHandle_other apart]; exact same⟩)
    have core : Core (σ.setHandle slot ⟨(σ.handles slot).node, generation, 0, false⟩) := inv.toCore.setHandle
    have same := release_same (W := W) core live (inv.handle before).1 ne
    exact ⟨same.place, same.bytes⟩
  · rename_i stays
    rw [if_neg stays, setHandle_other (closing_open after)]
    exact ⟨rfl, rfl, fun _ => rfl⟩

end

end closing

theorem Same.stays {op : Op} (same : Same (¬ op.OnNames) σ σ' node) : Stays op σ σ' node :=
  ⟨same.place, fun onNames => same.bytes (not_not.mpr onNames)⟩

theorem step_inv (σ : Vfs) (call : Env × Op) (inv : Inv σ) (spares : Spares σ call) : Inv (step σ call) := by
  obtain ⟨env, op⟩ := call
  by_cases isClose : ∃ descriptor, op = .close descriptor
  · obtain ⟨descriptor, rfl⟩ := isClose
    rcases step_close (σ := σ) env descriptor with idle | ⟨_, _, isOpen, closes⟩
    · rw [idle]
      exact inv
    rw [closes]
    exact closed_inv inv isOpen
  · have changes := perform_changes (S := True) inv.toRooted (fun _ => inv) env op fun descriptor same =>
      isClose ⟨descriptor, same⟩
    exact (changes_keep inv ⟨trivial, spares⟩ changes).1

theorem rename_arrives (inv : Inv σ) {env : Env} {source destination : Name} {noreplace : Bool}
    (done : (perform env (.rename source destination noreplace) σ).1 = .ok ()) :
    ∃ node parent name, σ.resolve source = .ok node ∧ σ.entryOf destination = some (parent, name) ∧
      Arrives σ node parent name (step σ (env, .rename source destination noreplace)) := by
  have made := renameWith_makes (C := False) (S := False) (W := False)
    (T := (σ.entryOf source).toList ++ (σ.entryOf destination).toList) inv.toRooted env source destination noreplace
    (by simp +contextual) (by simp +contextual) fun absurd => absurd.elim
  unfold wp at made
  rw [perform] at done
  rw [step, perform]
  split at made
  · rename_i value σ' run
    rw [run]
    exact made.2
  rename_i fault σ' run
  rw [run] at done
  cases done

theorem Arrives.kept (inv : Inv σ) {node parent : NodeId} {name : Name} (arrives : Arrives σ node parent name σ')
    (spares : ∀ other, σ.findChild parent name = some other → other ≠ node → σ.heir other = none) :
    Entry σ' parent name node ∧ σ'.content node = σ.content node ∧ Same W σ σ' (σ.content node) := by
  cases arrives with
  | there found => exact ⟨findChild_entry found, rfl, rfl, fun _ => rfl⟩
  | moved live =>
    refine ⟨⟨placed_live.mpr live, congrArg _ placed_here, congrArg _ placed_here⟩, ?_, placed_same⟩
    exact congrArg (·.getD node) placed_link
  | @replaced other live found ne =>
    have entry := findChild_entry found
    have record := discard_nodes_ne (σ := σ) ne.symm
    refine ⟨⟨placed_live.mpr ?_, congrArg _ placed_here, congrArg _ placed_here⟩, ?_, ?_⟩
    · rw [Live, record]
      exact live
    · refine (congrArg (·.getD node) placed_link).trans ?_
      rw [record, AerOS.Vfs.content]
    · have apart := content_ne inv.toCore (spares other found ne) live ne.symm
      exact (discard_same inv.toCore entry.live (inv.content live).1 apart).trans placed_same

theorem step_namesKept (σ : Vfs) (call : Env × Op) (inv : Inv σ) (spares : Spares σ call) : NamesKept σ call := by
  obtain ⟨env, op⟩ := call
  have after := step_inv σ (env, op) inv spares
  by_cases isClose : ∃ descriptor, op = .close descriptor
  · obtain ⟨descriptor, rfl⟩ := isClose
    rcases step_close (σ := σ) env descriptor with idle | ⟨_, _, isOpen, closes⟩
    · refine ⟨?_, ?_, ?_⟩
      · intro parent name node found _
        rw [idle]
        exact ⟨node, found, rfl, rfl, fun _ => rfl⟩
      · intro slot _ _
        rw [idle]
        exact ⟨rfl, rfl, fun _ => rfl⟩
      · intro source destination noreplace node parent name isRename
        cases isRename
    rw [closes] at after
    refine ⟨?_, ?_, ?_⟩
    · intro parent name node found _
      rw [closes]
      obtain ⟨node', entry', content, same⟩ := closed_entry inv isOpen (findChild_entry found)
      exact ⟨node', after.findChild_iff.mpr entry', content, same.stays⟩
    · intro other before afterwards
      rw [closes] at afterwards ⊢
      obtain ⟨sameNode, same⟩ := closed_handle inv isOpen before afterwards
      exact ⟨sameNode, same.stays⟩
    · intro source destination noreplace node parent name isRename
      cases isRename
  · have changes := perform_changes (S := True) inv.toRooted (fun _ => inv) env op fun descriptor same =>
      isClose ⟨descriptor, same⟩
    have keeps := (changes_keep inv ⟨trivial, spares⟩ changes).2
    refine ⟨?_, ?_, ?_⟩
    · intro parent name node found outside
      obtain ⟨node', entry', content, same⟩ := keeps.entry (findChild_entry found) outside
      exact ⟨node', after.findChild_iff.mpr entry', content, same.stays⟩
    · intro slot before _
      obtain ⟨_, sameNode, same⟩ := keeps.handle before
      exact ⟨sameNode, same.stays⟩
    intro source destination noreplace node parent name isRename done resolves isEntry
    subst isRename
    obtain ⟨node', _, _, resolves', isEntry', arrives⟩ := rename_arrives inv done
    rw [resolves, Except.ok.injEq] at resolves'
    rw [isEntry, Option.some.injEq, Prod.mk.injEq] at isEntry'
    obtain ⟨rfl, rfl⟩ := isEntry'
    subst resolves'
    obtain ⟨entry, content, same⟩ := arrives.kept inv fun other found ne =>
      spares parent name other isEntry found (by rw [resolves]; simpa using ne.symm)
    exact ⟨node, after.findChild_iff.mpr entry, content, same.stays⟩

theorem Inv.linksSound (inv : Inv σ) : LinksSound σ where
  link := fun node target live linked => ⟨(inv.link live linked).2.1, (inv.link live linked).2.2.1⟩
  owner := by
    intro file used
    obtain ⟨node, live, stored⟩ := inv.owner used
    exact ⟨node, ⟨live, stored⟩, fun _ h => inv.single h.1 live h.2 stored⟩
  used := by
    intro file
    constructor
    · intro used
      obtain ⟨node, live, stored⟩ := inv.owner used
      by_cases isOrphan : (σ.nodes node).parent = none
      · obtain ⟨slot, isOpen, opens⟩ := inUse_iff.mp (inv.orphan live isOrphan)
        exact .inr ⟨slot, isOpen, by rw [opens]; exact stored⟩
      refine .inl ⟨node, live, isOrphan, ?_⟩
      have noLink : (σ.nodes node).link = none := by
        by_contra linked
        obtain ⟨target, isLink⟩ := Option.ne_none_iff_exists'.mp linked
        simp [(inv.link live isLink).1] at stored
      simpa [AerOS.Vfs.content, noLink] using stored
    · rintro (⟨node, live, _, stored⟩ | ⟨slot, isOpen, stored⟩)
      · exact inv.stored (inv.content live).1 stored
      · exact inv.stored (inv.handle isOpen).1 stored

end

/-- In every run whose renames replace no node that holds the file of other names, links lead to files, names and handles
keep their files, and a slot of the pool is taken exactly as long as a name or a handle leads to it. -/
theorem links_sound_of_spares (clock : NodeId → Nat) (fat : Fat) (entries : List InitramfsEntry) (calls : List (Env × Op))
    (spares : Run.Along step Spares (mounted clock fat entries) calls) :
    Run.Throughout step LinksSound (mounted clock fat entries) calls ∧
      Run.Along step NamesKept (mounted clock fat entries) calls := by
  have start := (mounted_mounting clock fat entries).toInv
  refine ⟨Run.throughout_of_along step_inv (fun _ => Inv.linksSound) start spares, ?_⟩
  exact Run.along_of_along step_inv step_namesKept start spares

def quiet : Env := ⟨fun _ => false, fun _ => 0, true, true, true⟩

def bare : Vfs := mounted (fun _ => 0) ⟨[], fun _ => none, []⟩ []

/-- The rename at the end takes the only name of a file that is open. -/
def twoNames : List (Env × Op) :=
  [(quiet, .openFile (ascii "/tmp/a") true true false 0o644 true), (quiet, .write 0x10000 (ascii "x") false),
    (quiet, .link (ascii "/tmp/a") (ascii "/tmp/b")), (quiet, .remove (ascii "/tmp/a") false),
    (quiet, .openFile (ascii "/tmp/c") true true false 0o644 true),
    (quiet, .rename (ascii "/tmp/b") (ascii "/tmp/c") false)]

theorem twoNames_spares : Run.Along step Spares bare twoNames := by
  refine ⟨trivial, trivial, trivial, trivial, trivial, ?_, trivial⟩
  intro _ _ _ entry found _
  have isEntry : (Run.final step bare (twoNames.take 5)).entryOf (ascii "/tmp/c") = some (⟨1, by decide⟩, ascii "c") := by
    decide +kernel
  have opened : (Run.final step bare (twoNames.take 5)).findChild ⟨1, by decide⟩ (ascii "c") = some ⟨10, by decide⟩ := by
    decide +kernel
  cases isEntry.symm.trans entry
  cases opened.symm.trans found
  decide +kernel

theorem twoNames_sound : Run.Throughout step LinksSound bare twoNames ∧ Run.Along step NamesKept bare twoNames :=
  links_sound_of_spares _ _ _ _ twoNames_spares

/-- Open handles lead to live nodes, a node without a name is open, and no directory has a name twice. -/
theorem names_sound_of_spares (clock : NodeId → Nat) (fat : Fat) (entries : List InitramfsEntry)
    (calls : List (Env × Op)) (spares : Run.Along step Spares (mounted clock fat entries) calls) :
    Run.Throughout step NamesSound (mounted clock fat entries) calls := by
  have start := (mounted_mounting clock fat entries).toInv
  refine Run.throughout_of_along step_inv (fun σ inv => ⟨fun slot isOpen => (inv.handle isOpen).1, ?_, ?_⟩) start spares
  · intro node live orphan
    exact inUse_iff.mp (inv.orphan live orphan)
  · intro node other live live' named parents names
    obtain ⟨parent, isParent⟩ := Option.ne_none_iff_exists'.mp named
    exact inv.unique ⟨live, isParent, names⟩ ⟨live', parents ▸ isParent, rfl⟩

theorem twoNames_names_sound : Run.Throughout step NamesSound bare twoNames :=
  names_sound_of_spares _ _ _ _ twoNames_spares

/-- A link is renamed onto the name that holds its file. -/
def ontoItself : List (Env × Op) :=
  [(quiet, .openFile (ascii "/tmp/a") true true false 0o644 true), (quiet, .write 0x10000 (ascii "x") false),
    (quiet, .close 0x10000), (quiet, .link (ascii "/tmp/a") (ascii "/tmp/b")),
    (quiet, .rename (ascii "/tmp/b") (ascii "/tmp/a") false)]

theorem rename_over_file_dangles : ¬ LinksSound (Run.final step bare ontoItself) := by
  intro sound
  have live : (Run.final step bare ontoItself).Live ⟨10, by decide⟩ := by
    unfold Live
    decide +kernel
  have linked : ((Run.final step bare ontoItself).nodes ⟨10, by decide⟩).link = some ⟨9, by decide⟩ := by
    decide +kernel
  have gone : ((Run.final step bare ontoItself).nodes ⟨9, by decide⟩).kind = .empty := by
    decide +kernel
  rw [(sound.link _ _ live linked).1] at gone
  cases gone

end AerOS.Proof.Vfs
