import AerOS.Proof.Vfs.Calls

namespace AerOS.Proof.Vfs
open AerOS.Vfs Function Node

variable {file : FileId} {slot : HandleSlot}
variable {handle : OpenHandle} {other : NodeId}

structure Same (W : Prop) (σ σ' : Vfs) (node : NodeId) : Prop where
  place : (σ'.nodes node).storage = (σ.nodes node).storage
  bytes : ¬ W → σ'.bytesOf node = σ.bytesOf node

theorem Same.trans {W : Prop} {σ σ' σ'' : Vfs} {node : NodeId} (h : Same W σ σ' node) (h' : Same W σ' σ'' node) :
    Same W σ σ'' node :=
  ⟨h'.place.trans h.place, fun w => (h'.bytes w).trans (h.bytes w)⟩

theorem same_of {W : Prop} {σ σ' : Vfs} {node : NodeId} (place : (σ'.nodes node).storage = (σ.nodes node).storage)
    (data : (σ'.nodes node).data = (σ.nodes node).data)
    (file : ¬ W → ∀ file, (σ.nodes node).storage = some file → (σ'.files file).content = (σ.files file).content) :
    Same W σ σ' node := by
  refine ⟨place, fun w => ?_⟩
  unfold bytesOf
  rw [place]
  cases stored : (σ.nodes node).storage with
  | none => exact data
  | some slot => exact file w slot stored

structure Keeps (W : Prop) (T : List (NodeId × Name)) (σ σ' : Vfs) : Prop where
  entry : ∀ {parent name node}, Entry σ parent name node → (parent, name) ∉ T →
    ∃ node', Entry σ' parent name node' ∧ σ'.content node' = σ.content node ∧ Same W σ σ' (σ.content node)
  handle : ∀ {slot}, (σ.handles slot).isOpen = true →
    (σ'.handles slot).isOpen = true ∧ (σ'.handles slot).node = (σ.handles slot).node ∧
      Same W σ σ' (σ.handles slot).node

section
variable {W : Prop} {T : List (NodeId × Name)} {σ σ' σ'' : Vfs}

theorem Entry.kept {parent node : NodeId} {name : Name} (entry : Entry σ parent name node)
    (record : σ'.nodes node = σ.nodes node) (same : Same W σ σ' (σ.content node)) :
    ∃ node', Entry σ' parent name node' ∧ σ'.content node' = σ.content node ∧ Same W σ σ' (σ.content node) := by
  refine ⟨node, entry.congr record, ?_, same⟩
  unfold AerOS.Vfs.content
  rw [record]

theorem Keeps.refl : Keeps W T σ σ :=
  ⟨fun {_ _ node} entry _ => ⟨node, entry, rfl, rfl, fun _ => rfl⟩, fun isOpen => ⟨isOpen, rfl, rfl, fun _ => rfl⟩⟩

theorem Keeps.trans (h : Keeps W T σ σ') (h' : Keeps W T σ' σ'') : Keeps W T σ σ'' := by
  refine ⟨fun entry other => ?_, fun isOpen => ?_⟩
  · obtain ⟨node', entry', content', same⟩ := h.entry entry other
    obtain ⟨node'', entry'', content'', same'⟩ := h'.entry entry' other
    rw [content'] at content'' same'
    exact ⟨node'', entry'', content'', same.trans same'⟩
  obtain ⟨isOpen', node', same⟩ := h.handle isOpen
  obtain ⟨isOpen'', node'', same'⟩ := h'.handle isOpen'
  rw [node'] at node'' same'
  exact ⟨isOpen'', node'', same.trans same'⟩

structure Alike (σ σ' : Vfs) : Prop where
  root : σ'.nodes rootNode = .root
  count : σ'.nodeCount = σ.nodeCount
  kind : ∀ node, (σ'.nodes node).kind = (σ.nodes node).kind
  parent : ∀ node, (σ'.nodes node).parent = (σ.nodes node).parent
  name : ∀ node, (σ'.nodes node).name = (σ.nodes node).name
  data : ∀ node, (σ'.nodes node).data = (σ.nodes node).data
  storage : ∀ node, (σ'.nodes node).storage = (σ.nodes node).storage
  link : ∀ node, (σ'.nodes node).link = (σ.nodes node).link
  used : ∀ file, (σ'.files file).used = (σ.files file).used
  isOpen : ∀ slot, (σ'.handles slot).isOpen = (σ.handles slot).isOpen
  opens : ∀ slot, (σ'.handles slot).node = (σ.handles slot).node

namespace Alike

section
variable (h : Alike σ σ')
include h

theorem live {node : NodeId} : σ'.Live node ↔ σ.Live node := by
  simp [Live, h.kind]

theorem entry {parent node : NodeId} {name : Name} :
    Entry σ' parent name node ↔ Entry σ parent name node := by
  constructor
  · rintro ⟨live, parent, name⟩
    exact ⟨h.live.mp live, h.parent node ▸ parent, h.name node ▸ name⟩
  rintro ⟨live, parent, name⟩
  exact ⟨h.live.mpr live, (h.parent node).symm ▸ parent, (h.name node).symm ▸ name⟩

theorem inv (inv : Inv σ) : Inv σ' where
  root := h.root
  bounded := by
    intro node live
    rw [h.count]
    exact inv.bounded node (h.live.mp live)
  unique := fun entry entry' => inv.unique (h.entry.mp entry) (h.entry.mp entry')
  link := by
    intro node _ live linked
    rw [h.storage, h.kind, h.link, h.parent]
    exact inv.link (h.live.mp live) (by rw [← h.link]; exact linked)
  stored := by
    intro node file live stored
    rw [h.used]
    exact inv.stored (h.live.mp live) (by rw [← h.storage]; exact stored)
  single := by
    intro node _ file live live' stored stored'
    rw [h.storage] at stored stored'
    exact inv.single (h.live.mp live) (h.live.mp live') stored stored'
  owner := by
    intro file used
    rw [h.used] at used
    obtain ⟨node, live, stored⟩ := inv.owner used
    exact ⟨node, h.live.mpr live, by rw [h.storage]; exact stored⟩
  handle := by
    intro slot isOpen
    rw [h.isOpen] at isOpen
    rw [h.opens, h.live, h.link]
    exact inv.handle isOpen
  orphan := by
    intro node live parent
    rw [h.parent] at parent
    obtain ⟨slot, isOpen, opens⟩ := inUse_iff.mp (inv.orphan (h.live.mp live) parent)
    exact inUse_iff.mpr ⟨slot, by rw [h.isOpen]; exact isOpen, by rw [h.opens]; exact opens⟩

theorem keeps (inv : Inv σ)
    (bytes : ¬ W → ∀ file, (σ.files file).used = true → (σ'.files file).content = (σ.files file).content) :
    Keeps W T σ σ' := by
  have same : ∀ node, σ.Live node → Same W σ σ' node := fun node live =>
    same_of (h.storage node) (h.data node) fun w file stored => bytes w file (inv.stored live stored)
  refine ⟨fun {parent name node} entry _ => ⟨node, h.entry.mpr entry, ?_, same _ (inv.content entry.live).1⟩, ?_⟩
  · simp [AerOS.Vfs.content, h.link]
  intro slot isOpen
  exact ⟨by rw [h.isOpen]; exact isOpen, h.opens slot, same _ (inv.handle isOpen).1⟩

end

theorem setNode {node : NodeId} {record : Node} (inv : Inv σ) (notRoot : node ≠ rootNode)
    (kind : record.kind = (σ.nodes node).kind) (parent : record.parent = (σ.nodes node).parent)
    (name : record.name = (σ.nodes node).name) (data : record.data = (σ.nodes node).data)
    (storage : record.storage = (σ.nodes node).storage) (link : record.link = (σ.nodes node).link) :
    Alike σ (σ.setNode node record) := by
  have field : ∀ {α : Type} (f : Node → α), f record = f (σ.nodes node) → ∀ n, f ((σ.setNode node record).nodes n) = f (σ.nodes n) := by
    intro α f eq n
    by_cases here : n = node
    · subst here
      simp [AerOS.Vfs.setNode, eq]
    · simp [AerOS.Vfs.setNode, here]
  refine ⟨?_, rfl, field _ kind, field _ parent, field _ name, field _ data, field _ storage, field _ link,
    fun _ => rfl, fun _ => rfl, fun _ => rfl⟩
  simp [AerOS.Vfs.setNode, notRoot.symm, inv.root]

theorem setFile {slot : FileId} {record : MutableFile} (inv : Inv σ) (used : record.used = (σ.files slot).used) :
    Alike σ (σ.setFile slot record) := by
  refine ⟨inv.root, rfl, fun _ => rfl, fun _ => rfl, fun _ => rfl, fun _ => rfl, fun _ => rfl, fun _ => rfl,
    fun file => ?_, fun _ => rfl, fun _ => rfl⟩
  by_cases here : file = slot
  · subst here
    simp [AerOS.Vfs.setFile, used]
  · simp [AerOS.Vfs.setFile, here]

theorem setHandle {cursor : Nat} (inv : Inv σ) :
    Alike σ (σ.setHandle slot { σ.handles slot with cursor := cursor }) := by
  refine ⟨inv.root, rfl, fun _ => rfl, fun _ => rfl, fun _ => rfl, fun _ => rfl, fun _ => rfl, fun _ => rfl,
    fun _ => rfl, fun other => ?_, fun other => ?_⟩ <;>
  · by_cases here : other = slot
    · subst here
      simp [AerOS.Vfs.setHandle]
    · simp [AerOS.Vfs.setHandle, here]

end Alike

theorem Core.setHandle (core : Core σ) : Core (σ.setHandle slot handle) := ⟨⟨core.root, core.bounded⟩,
    fun entry entry' => core.unique (entry.congr rfl) (entry'.congr rfl),
    core.link, core.stored, core.single, core.owner⟩

theorem opened_inv (inv : Inv σ) {name : NodeId} {generation : Nat}
    (free : (σ.handles slot).isOpen = false) (live : σ.Live name) :
    Inv (σ.setHandle slot ⟨σ.content name, generation, 0, true⟩) where
  toCore := inv.toCore.setHandle
  handle := by
    intro other isOpen
    by_cases here : other = slot
    · subst here
      simpa [setHandle, Live] using inv.content live
    simp only [setHandle, update_of_ne here] at isOpen ⊢
    exact inv.handle isOpen
  orphan := by
    intro _ live parent
    obtain ⟨other, isOpen, opens⟩ := inUse_iff.mp (inv.orphan live parent)
    have apart : other ≠ slot := by
      rintro rfl
      simp [free] at isOpen
    exact inUse_iff.mpr ⟨other, by simpa [setHandle, apart] using isOpen, by simpa [setHandle, apart] using opens⟩

theorem opened_keeps (free : (σ.handles slot).isOpen = false) : Keeps W T σ (σ.setHandle slot handle) := by
  refine ⟨fun {_ _ node} entry _ => ⟨node, entry.congr rfl, rfl, rfl, fun _ => rfl⟩, ?_⟩
  intro other isOpen
  have apart : other ≠ slot := by
    rintro rfl
    simp [free] at isOpen
  have same : (σ.setHandle slot handle).handles other = σ.handles other := by simp [setHandle, apart]
  rw [same]
  exact ⟨isOpen, rfl, rfl, fun _ => rfl⟩

section added
variable {S : Prop} {index parent : NodeId} {node : Node} {files : FileId → MutableFile}

theorem insert_nodes_ne {other : NodeId} (ne : other ≠ index) :
    ({ insert σ index node with files := files } : Vfs).nodes other = σ.nodes other := by
  simp [insert, ne]

theorem Free.ne (free : Free σ index) (live : σ.Live other) : other ≠ index := by
  rintro rfl
  exact free.notLive live

theorem insert_live (live : ({ insert σ index node with files := files } : Vfs).Live other)
    (ne : other ≠ index) : σ.Live other := by
  rw [Live, insert_nodes_ne ne] at live
  exact live

section
variable (attached : Attached S σ node files)
include attached

theorem Attached.unused (stored : node.storage = some file) :
    (σ.files file).used = false ∧ (files file).used = true := by
  cases attached with
  | plain noLink noFile => simp [noFile] at stored
  | link _ noFile => simp [noFile] at stored
  | file noLink isFile free used =>
    rw [isFile] at stored
    cases stored
    exact ⟨free, by simpa using used⟩

theorem Attached.others (used : (σ.files file).used = true) : files file = σ.files file := by
  cases attached with
  | plain noLink noFile => rfl
  | link _ noFile => rfl
  | file noLink _ free _ =>
    rw [update_of_ne]
    rintro rfl
    simp [free] at used

theorem Attached.owned (used : (files file).used = true) :
    node.storage = some file ∨ (σ.files file).used = true := by
  cases attached with
  | plain noLink noFile => exact .inr used
  | link _ noFile => exact .inr used
  | @file slot _ noLink isFile _ _ =>
    by_cases here : file = slot
    · exact .inl (here ▸ isFile)
    rw [update_of_ne here] at used
    exact .inr used

end

theorem added_core (core : Core σ) (free : Free σ index) (isParent : node.parent = some parent)
    (fresh : σ.findChild parent node.name = none) (s : S) (attached : Attached S σ node files) (nonempty : node.kind ≠ .empty) :
    Core { insert σ index node with files := files } := by
  have new : ({ insert σ index node with files := files } : Vfs).nodes index = node := by simp [insert]
  have alone : ∀ {other}, other ≠ index → ∀ {parent' name},
      Entry { insert σ index node with files := files } parent' name other → Entry σ parent' name other :=
    fun ne _ _ entry => entry.congr (insert_nodes_ne ne).symm
  have clash : ∀ {other parent' name}, other ≠ index →
      Entry { insert σ index node with files := files } parent' name index →
      Entry { insert σ index node with files := files } parent' name other → False := by
    rintro other parent' name ne ⟨-, parent, text⟩ entry
    rw [new] at parent text
    rw [isParent, Option.some.injEq] at parent
    subst parent text
    exact findChild_none core.bounded fresh (alone ne entry)
  refine ⟨⟨?_, ?_⟩, ?_, ?_, ?_, ?_, ?_⟩
  · rw [insert_nodes_ne free.notRoot.symm, core.root]
  · intro other live
    by_cases ne : other = index
    · subst ne
      simp [insert]
    have := core.bounded other (insert_live live ne)
    simp only [insert]
    omega
  · intro parent' name one other entry entry'
    by_cases here : one = index <;> by_cases there : other = index
    · rw [here, there]
    · exact (clash there (here ▸ entry) entry').elim
    · exact (clash here (there ▸ entry') entry).elim
    · exact core.unique (alone here entry) (alone there entry')
  · intro one _ live linked
    by_cases here : one = index
    · subst here
      rw [new] at linked ⊢
      cases attached with
      | plain noLink noFile => simp [noLink] at linked
      | file noLink _ => simp [noLink] at linked
      | link isLink noFile kind noLink named =>
        rw [isLink, Option.some.injEq] at linked
        subst linked
        rw [insert_nodes_ne (free.ne (by simp [Live, kind]))]
        exact ⟨noFile, kind, noLink s, named s⟩
    · rw [insert_nodes_ne here] at linked ⊢
      have old := core.link (insert_live live here) linked
      rw [insert_nodes_ne (free.ne (by simp [Live, old.2.1]))]
      exact old
  · intro one file live stored
    by_cases here : one = index
    · subst here
      rw [new] at stored
      exact (attached.unused stored).2
    rw [insert_nodes_ne here] at stored
    have used := core.stored (insert_live live here) stored
    simp only [attached.others used]
    exact used
  · intro one other file live live' stored stored'
    have apart : ∀ {one}, one ≠ index → ({ insert σ index node with files := files } : Vfs).Live one →
        (({ insert σ index node with files := files } : Vfs).nodes one).storage = some file → node.storage ≠ some file := by
      intro one ne live stored own
      rw [insert_nodes_ne ne] at stored
      have used := core.stored (insert_live live ne) stored
      simp [(attached.unused own).1] at used
    by_cases here : one = index <;> by_cases there : other = index
    · rw [here, there]
    · subst here
      rw [new] at stored
      exact (apart there live' stored' stored).elim
    · subst there
      rw [new] at stored'
      exact (apart here live stored stored').elim
    · rw [insert_nodes_ne here] at stored
      rw [insert_nodes_ne there] at stored'
      exact core.single (insert_live live here) (insert_live live' there) stored stored'
  · intro file used
    rcases attached.owned used with own | old
    · exact ⟨index, by simpa [Live, insert] using nonempty, by rw [new]; exact own⟩
    obtain ⟨owner, live, stored⟩ := core.owner old
    refine ⟨owner, ?_, ?_⟩
    · rw [Live, insert_nodes_ne (free.ne live)]
      exact live
    rw [insert_nodes_ne (free.ne live)]
    exact stored

theorem added_inv (inv : Inv σ) (free : Free σ index) (isParent : node.parent = some parent)
    (fresh : σ.findChild parent node.name = none) (s : S) (attached : Attached S σ node files) (nonempty : node.kind ≠ .empty) :
    Inv { insert σ index node with files := files } := by
  refine ⟨added_core inv.toCore free isParent fresh s attached nonempty, ?_, ?_⟩
  · intro _ isOpen
    have old := inv.handle isOpen
    have ne := free.ne old.1
    rw [Live]
    simp only [insert, update_of_ne ne]
    exact old
  intro one live parent'
  by_cases here : one = index
  · subst here
    simp [insert, isParent] at parent'
  rw [insert_nodes_ne here] at parent'
  exact inv.orphan (insert_live live here) parent'

theorem added_keeps (inv : Inv σ) (free : Free σ index) (attached : Attached S σ node files) :
    Keeps W T σ { insert σ index node with files := files } := by
  have same : ∀ {other}, σ.Live other → Same W σ { insert σ index node with files := files } other := by
    intro other live
    have record := @insert_nodes_ne σ index node files other (free.ne live)
    refine same_of (by rw [record]) (by rw [record]) fun _ _ stored => ?_
    simp only [attached.others (inv.stored live stored)]
  refine ⟨fun {parent' name other} entry _ => ?_, fun isOpen => ⟨isOpen, rfl, same (inv.handle isOpen).1⟩⟩
  exact entry.kept (insert_nodes_ne (free.ne entry.live)) (same (inv.content entry.live).1)

end added

end

variable {α : Type}

section
variable {W : Prop} {T : List (NodeId × Name)} {σ : Vfs} {node : NodeId}

theorem heir_link (inv : Inv σ) {node : NodeId} (linked : (σ.nodes node).link ≠ none) : σ.heir node = none := by
  cases found : σ.heir node with
  | none => rfl
  | some heir =>
    obtain ⟨live, isLink⟩ := heir_some found
    exact absurd (inv.link live isLink).2.2.1 linked

theorem releaseNode_nodes (other : NodeId) :
    (σ.releaseNode node).nodes other = if other = node then .empty else σ.nodes other := by
  unfold releaseNode
  cases (σ.nodes node).storage <;> simp [setNode, setFile, update_apply]

theorem releaseNode_handles : (σ.releaseNode node).handles = σ.handles := by
  unfold releaseNode
  cases (σ.nodes node).storage <;> rfl

theorem releaseNode_files (file : FileId) :
    (σ.releaseNode node).files file = if (σ.nodes node).storage = some file then .empty else σ.files file := by
  unfold releaseNode
  cases stored : (σ.nodes node).storage with
  | none => simp [setNode]
  | some _ => simp [setNode, setFile, update_apply, eq_comm]

theorem releaseNode_live (live : (σ.releaseNode node).Live other) : other ≠ node ∧ σ.Live other := by
  by_cases here : other = node
  · simp [Live, releaseNode_nodes, here, empty] at live
  rw [Live, releaseNode_nodes, if_neg here] at live
  exact ⟨here, live⟩

theorem releaseNode_record (ne : other ≠ node) : (σ.releaseNode node).nodes other = σ.nodes other := by
  rw [releaseNode_nodes, if_neg ne]

section
variable (core : Core σ)
include core

theorem Core.release (present : σ.Live node) (notRoot : node ≠ rootNode) (unlinked : σ.heir node = none) :
    Core (σ.releaseNode node) := by
  have entry_old : ∀ {parent name other}, Entry (σ.releaseNode node) parent name other → Entry σ parent name other :=
    fun entry => entry.congr (releaseNode_record (releaseNode_live entry.live).1).symm
  refine ⟨⟨?_, ?_⟩, fun entry entry' => core.unique (entry_old entry) (entry_old entry'), ?_, ?_, ?_, ?_⟩
  · rw [releaseNode_record notRoot.symm, core.root]
  · intro other live
    unfold releaseNode
    cases (σ.nodes node).storage <;> exact core.bounded other (releaseNode_live live).2
  · intro other target live linked
    obtain ⟨ne, old⟩ := releaseNode_live live
    rw [releaseNode_record ne] at linked ⊢
    have apart : target ≠ node := by
      rintro rfl
      exact heir_none core.bounded unlinked old linked
    rw [releaseNode_record apart]
    exact core.link old linked
  · intro other file live stored
    obtain ⟨ne, live⟩ := releaseNode_live live
    rw [releaseNode_record ne] at stored
    rw [releaseNode_files, if_neg]
    · exact core.stored live stored
    intro own
    exact ne (core.single live present stored own)
  · intro _ other file live live' stored stored'
    obtain ⟨ne, live⟩ := releaseNode_live live
    obtain ⟨ne', live'⟩ := releaseNode_live live'
    rw [releaseNode_record ne] at stored
    rw [releaseNode_record ne'] at stored'
    exact core.single live live' stored stored'
  · intro file used
    rw [releaseNode_files] at used
    split at used
    · simp [MutableFile.empty] at used
    rename_i other
    obtain ⟨owner, live, stored⟩ := core.owner used
    have ne : owner ≠ node := by
      rintro rfl
      exact other stored
    refine ⟨owner, ?_, ?_⟩
    · rw [Live, releaseNode_record ne]
      exact live
    rw [releaseNode_record ne]
    exact stored

theorem release_same (present : σ.Live node) (live : σ.Live other) (ne : other ≠ node) :
    Same W σ (σ.releaseNode node) other := by
  refine same_of (by rw [releaseNode_record ne]) (by rw [releaseNode_record ne]) fun _ _ stored => ?_
  rw [releaseNode_files, if_neg]
  intro own
  exact ne (core.single live present stored own)

theorem content_ne (unlinked : σ.heir node = none) {name : NodeId} (live : σ.Live name)
    (ne : name ≠ node) : σ.content name ≠ node := by
  unfold AerOS.Vfs.content
  cases linked : (σ.nodes name).link with
  | none => exact ne
  | some _ =>
    rintro rfl
    exact heir_none core.bounded unlinked live linked

theorem release_entry (present : σ.Live node) (unlinked : σ.heir node = none) {parent : NodeId}
    {name : Name} (entry : Entry σ parent name other) (ne : other ≠ node) :
    ∃ node', Entry (σ.releaseNode node) parent name node' ∧ (σ.releaseNode node).content node' = σ.content other ∧
      Same W σ (σ.releaseNode node) (σ.content other) := by
  apply entry.kept (releaseNode_record ne)
  exact release_same core present (core.content entry.live).1 (content_ne core unlinked entry.live ne)

end

theorem inUse_release : (σ.releaseNode node).inUse = σ.inUse := by
  unfold inUse
  rw [releaseNode_handles]

def orphaned (σ : Vfs) (node : NodeId) : Vfs := σ.setNode node { σ.nodes node with parent := none, name := [] }

section
variable {parent : Option NodeId} {name : Name}

abbrev placed (σ : Vfs) (node : NodeId) (parent : Option NodeId) (name : Name) : Vfs :=
  σ.setNode node { σ.nodes node with parent, name }

theorem placed_record (ne : other ≠ node) : (placed σ node parent name).nodes other = σ.nodes other := by
  simp [setNode, ne]

theorem placed_here : (placed σ node parent name).nodes node = { σ.nodes node with parent, name } := by
  simp [setNode]

theorem placed_field (f : Node → α) (other : NodeId) (h : ∀ record parent name, f { record with parent, name } = f record) :
    f ((placed σ node parent name).nodes other) = f (σ.nodes other) := by
  by_cases here : other = node
  · rw [here, placed_here, h]
  · rw [placed_record here]

theorem placed_storage : ((placed σ node parent name).nodes other).storage = (σ.nodes other).storage :=
  placed_field storage other fun _ _ _ => rfl

theorem placed_link : ((placed σ node parent name).nodes other).link = (σ.nodes other).link :=
  placed_field link other fun _ _ _ => rfl

theorem placed_live : (placed σ node parent name).Live other ↔ σ.Live other := by
  rw [Live, placed_field kind other fun _ _ _ => rfl, Live]

theorem placed_same : Same W σ (placed σ node parent name) other :=
  same_of placed_storage (placed_field data other fun _ _ _ => rfl) fun _ _ _ => rfl

theorem placed_entry {parent' : NodeId} {name' : Name} (entry : Entry (placed σ node parent name) parent' name' other) :
    other = node ∧ parent = some parent' ∧ name = name' ∨ other ≠ node ∧ Entry σ parent' name' other := by
  by_cases here : other = node
  · obtain ⟨-, isParent, isName⟩ := entry
    rw [here, placed_here] at isParent isName
    exact .inl ⟨here, isParent, isName⟩
  · exact .inr ⟨here, entry.congr (placed_record here).symm⟩

theorem Core.place (core : Core σ) (notRoot : node ≠ rootNode)
    (unique : ∀ {parent' name' one other}, Entry (placed σ node parent name) parent' name' one →
      Entry (placed σ node parent name) parent' name' other → one = other)
    (named : ∀ {other}, σ.Live other → (σ.nodes other).link = some node → parent ≠ none) :
    Core (placed σ node parent name) := by
  refine ⟨⟨?_, ?_⟩, unique, ?_, ?_, ?_, ?_⟩
  · rw [placed_record notRoot.symm, core.root]
  · intro other live
    exact core.bounded other (placed_live.mp live)
  · intro other target live linked
    rw [placed_link] at linked
    obtain ⟨noFile, kind, noLink, old⟩ := core.link (placed_live.mp live) linked
    rw [placed_storage, placed_field Node.kind _ fun _ _ _ => rfl, placed_link]
    refine ⟨noFile, kind, noLink, ?_⟩
    by_cases here : target = node
    · subst here
      rw [placed_here]
      exact named (placed_live.mp live) linked
    rw [placed_record here]
    exact old
  · intro other file live stored
    rw [placed_storage] at stored
    exact core.stored (placed_live.mp live) stored
  · intro one other file live live' stored stored'
    rw [placed_storage] at stored stored'
    exact core.single (placed_live.mp live) (placed_live.mp live') stored stored'
  · intro file used
    obtain ⟨owner, live, stored⟩ := core.owner used
    exact ⟨owner, placed_live.mpr live, by rw [placed_storage]; exact stored⟩

theorem placed_keeps (touched : ∀ parent name, Entry σ parent name node → (parent, name) ∈ T) :
    Keeps W T σ (placed σ node parent name) := by
  refine ⟨fun {parent' name' other} entry outside => ?_, fun isOpen => ⟨isOpen, rfl, placed_same⟩⟩
  have apart : other ≠ node := by
    rintro rfl
    exact outside (touched parent' name' entry)
  exact entry.kept (placed_record apart) placed_same

end

theorem Core.orphan (core : Core σ) (notRoot : node ≠ rootNode) (unlinked : σ.heir node = none) :
    Core (orphaned σ node) := by
  have old : ∀ {parent name other}, Entry (orphaned σ node) parent name other → Entry σ parent name other := by
    intro parent name other entry
    exact ((placed_entry entry).resolve_left fun here => absurd here.2.1.symm (Option.some_ne_none _)).2
  refine core.place notRoot (fun entry entry' => core.unique (old entry) (old entry')) fun live linked => ?_
  exact (heir_none core.bounded unlinked live linked).elim

theorem discard_same (core : Core σ) (present : σ.Live node) (live : σ.Live other) (ne : other ≠ node) :
    Same W σ (σ.discard node) other := by
  unfold AerOS.Vfs.discard
  split
  · exact placed_same
  · exact release_same core present live ne

theorem discard_inv (inv : Inv σ) (present : σ.Live node) (notRoot : node ≠ rootNode) (unlinked : σ.heir node = none) :
    Inv (σ.discard node) := by
  unfold AerOS.Vfs.discard
  by_cases used : σ.inUse node = true
  · rw [if_pos used]
    refine ⟨inv.toCore.orphan notRoot unlinked, ?_, ?_⟩
    · intro slot isOpen
      have old := inv.handle isOpen
      exact ⟨placed_live.mpr old.1, placed_link.trans old.2⟩
    intro other live isOrphan
    by_cases here : other = node
    · rw [here]
      exact used
    · exact inv.orphan (placed_live.mp live) (by rw [← isOrphan]; exact (congrArg _ (placed_record here)).symm)
  rw [if_neg used]
  refine ⟨inv.toCore.release present notRoot unlinked, ?_, ?_⟩
  · intro slot isOpen
    rw [releaseNode_handles] at isOpen ⊢
    have ne : (σ.handles slot).node ≠ node := fun same => used (inUse_iff.mpr ⟨slot, isOpen, same⟩)
    rw [Live, releaseNode_record ne]
    exact inv.handle isOpen
  intro other live isOrphan
  obtain ⟨ne, old⟩ := releaseNode_live live
  rw [releaseNode_record ne] at isOrphan
  rw [inUse_release]
  exact inv.orphan old isOrphan

theorem discard_keeps (inv : Inv σ) (present : σ.Live node) (unlinked : σ.heir node = none)
    (touched : ∀ parent name, Entry σ parent name node → (parent, name) ∈ T) : Keeps W T σ (σ.discard node) := by
  have apart : ∀ {parent name other}, Entry σ parent name other → (parent, name) ∉ T → other ≠ node := by
    rintro parent name other entry outside rfl
    exact outside (touched parent name entry)
  unfold AerOS.Vfs.discard
  by_cases used : σ.inUse node = true
  · rw [if_pos used]
    exact placed_keeps touched
  · rw [if_neg used]
    refine ⟨fun entry outside => release_entry inv.toCore present unlinked entry (apart entry outside), ?_⟩
    intro slot isOpen
    have ne : (σ.handles slot).node ≠ node := fun same => used (inUse_iff.mpr ⟨slot, isOpen, same⟩)
    rw [releaseNode_handles]
    exact ⟨isOpen, rfl, release_same inv.toCore present (inv.handle isOpen).1 ne⟩

section inherited
variable {heir : NodeId}

theorem inherit_nodes (other : NodeId) : (σ.inherit node heir).nodes other = if other = heir then .empty
      else if other = node then { σ.nodes node with parent := (σ.nodes heir).parent, name := (σ.nodes heir).name }
      else σ.nodes other := by
  simp [AerOS.Vfs.inherit, setNode, update_apply]

theorem inherit_record (apart : other ≠ heir) (apart' : other ≠ node) :
    (σ.inherit node heir).nodes other = σ.nodes other := by
  rw [inherit_nodes, if_neg apart, if_neg apart']

theorem inherit_live (ne : node ≠ heir) : (σ.inherit node heir).Live other ↔ other ≠ heir ∧ σ.Live other := by
  rw [Live, inherit_nodes]
  by_cases here : other = heir
  · simp [here, empty]
  by_cases there : other = node
  · simp [there, ne, Live]
  · simp [here, there, Live]

theorem inherit_field (f : Node → α) (node : NodeId) (apart : other ≠ heir)
    (h : f { σ.nodes node with parent := (σ.nodes heir).parent, name := (σ.nodes heir).name } = f (σ.nodes node)) :
    f ((σ.inherit node heir).nodes other) = f (σ.nodes other) := by
  rw [inherit_nodes, if_neg apart]
  split
  · rename_i here
    rw [here, h]
  · rfl

theorem inherit_entry (ne : node ≠ heir) {parent : NodeId} {name : Name}
    (entry : Entry (σ.inherit node heir) parent name other) (present : σ.Live heir) :
    other = node ∧ Entry σ parent name heir ∨ other ≠ node ∧ other ≠ heir ∧ Entry σ parent name other := by
  obtain ⟨apart, -⟩ := (inherit_live ne).mp entry.live
  by_cases here : other = node
  · obtain ⟨-, isParent, isName⟩ := entry
    rw [inherit_nodes, if_neg apart, if_pos here] at isParent isName
    exact .inl ⟨here, present, isParent, isName⟩
  · exact .inr ⟨here, apart, entry.congr (inherit_record apart here).symm⟩

variable (inv : Inv σ) (notRoot : node ≠ rootNode) (plain : (σ.nodes node).link = none) (found : σ.heir node = some heir)
include inv plain found

omit inv in
theorem heir_ne : node ≠ heir := by
  rintro rfl
  simpa [plain] using (heir_some found).2

omit plain in
theorem heir_named : (σ.nodes heir).parent ≠ none := by
  intro isOrphan
  obtain ⟨live, linked⟩ := heir_some found
  have unopened : σ.inUse heir = false := inv.unopened (by simp [linked])
  rw [inv.orphan live isOrphan] at unopened
  cases unopened

include notRoot in
theorem inherit_core : Core (σ.inherit node heir) := by
  obtain ⟨present, linked⟩ := heir_some found
  have ne : node ≠ heir := heir_ne plain found
  have noFile := (inv.link present linked).1
  have unlinked : ∀ {other}, (σ.nodes other).link = none → other ≠ heir := by
    rintro other noLink rfl
    simp [linked] at noLink
  refine ⟨⟨?_, ?_⟩, ?_, ?_, ?_, ?_, ?_⟩
  · rw [inherit_record (unlinked (by simp [inv.root, root])) notRoot.symm, inv.root]
  · intro other live
    exact inv.bounded other ((inherit_live ne).mp live).2
  · intro _ _ one other entry entry'
    rcases inherit_entry ne entry present with ⟨here, old⟩ | ⟨here, apart, old⟩ <;>
    rcases inherit_entry ne entry' present with ⟨there, old'⟩ | ⟨there, apart', old'⟩
    · rw [here, there]
    · exact (apart' (inv.unique old' old)).elim
    · exact (apart (inv.unique old old')).elim
    · exact inv.unique old old'
  · intro other _ live isLink
    obtain ⟨apart, live⟩ := (inherit_live ne).mp live
    rw [inherit_field link node apart rfl] at isLink
    obtain ⟨noFile, kind, noLink, named⟩ := inv.link live isLink
    have apart' := unlinked noLink
    rw [inherit_field storage node apart rfl, inherit_field Node.kind node apart' rfl, inherit_field link node apart' rfl]
    refine ⟨noFile, kind, noLink, ?_⟩
    rw [inherit_nodes, if_neg apart']
    split
    · exact heir_named inv found
    · exact named
  · intro other file live stored
    obtain ⟨apart, live⟩ := (inherit_live ne).mp live
    rw [inherit_field storage node apart rfl] at stored
    exact inv.stored live stored
  · intro one other file live live' stored stored'
    obtain ⟨apart, live⟩ := (inherit_live ne).mp live
    obtain ⟨apart', live'⟩ := (inherit_live ne).mp live'
    rw [inherit_field storage node apart rfl] at stored
    rw [inherit_field storage node apart' rfl] at stored'
    exact inv.single live live' stored stored'
  · intro file used
    obtain ⟨owner, live, stored⟩ := inv.owner used
    have apart : owner ≠ heir := by
      rintro rfl
      simp [noFile] at stored
    exact ⟨owner, (inherit_live ne).mpr ⟨apart, live⟩, by rw [inherit_field storage node apart rfl]; exact stored⟩

omit plain in
theorem handle_ne_heir {slot : HandleSlot} (isOpen : (σ.handles slot).isOpen = true) : (σ.handles slot).node ≠ heir := by
  rintro rfl
  have noLink := (inv.handle isOpen).2
  simp [(heir_some found).2] at noLink

include notRoot in
theorem inherit_inv : Inv (σ.inherit node heir) := by
  have ne : node ≠ heir := heir_ne plain found
  refine ⟨inherit_core inv notRoot plain found, ?_, ?_⟩
  · intro _ isOpen
    have apart := handle_ne_heir inv found isOpen
    have old := inv.handle isOpen
    exact ⟨(inherit_live ne).mpr ⟨apart, old.1⟩, (inherit_field link node apart rfl).trans old.2⟩
  intro other live isOrphan
  obtain ⟨apart, live⟩ := (inherit_live ne).mp live
  by_cases here : other = node
  · rw [inherit_nodes, if_neg apart, if_pos here] at isOrphan
    exact (heir_named inv found isOrphan).elim
  rw [inherit_record apart here] at isOrphan
  exact inv.orphan live isOrphan

theorem inherit_keeps (touched : ∀ parent name, Entry σ parent name node → (parent, name) ∈ T) :
    Keeps W T σ (σ.inherit node heir) := by
  obtain ⟨_, linked⟩ := heir_some found
  have ne : node ≠ heir := heir_ne plain found
  have same : ∀ {other}, other ≠ heir → Same W σ (σ.inherit node heir) other := fun apart =>
    same_of (inherit_field storage node apart rfl) (inherit_field data node apart rfl) fun _ _ _ => rfl
  have contentNe : ∀ {name}, σ.Live name → σ.content name ≠ heir := by
    intro name live same
    have noLink := (inv.content live).2
    simp [same, linked] at noLink
  refine ⟨fun {parent name other} entry outside => ?_, fun isOpen => ⟨isOpen, rfl, same (handle_ne_heir inv found isOpen)⟩⟩
  have apart : other ≠ node := by
    rintro rfl
    exact outside (touched parent name entry)
  by_cases here : other = heir
  · subst here
    have content : σ.content other = node := by simp [AerOS.Vfs.content, linked]
    refine ⟨node, ⟨(inherit_live ne).mpr ⟨ne, ?_⟩, ?_, ?_⟩, ?_, same (contentNe entry.live)⟩
    · rw [← content]
      exact (inv.content entry.live).1
    · rw [inherit_nodes, if_neg ne, if_pos rfl, ← entry.parent]
    · rw [inherit_nodes, if_neg ne, if_pos rfl, ← entry.name]
    · rw [content, AerOS.Vfs.content, inherit_field link node ne rfl, plain, Option.getD_none]
  exact entry.kept (inherit_record here apart) (same (contentNe entry.live))

end inherited

theorem moved_inv {parent : NodeId} {name : Name} (inv : Inv σ) (notRoot : node ≠ rootNode)
    (fresh : ∀ other, ¬ Entry σ parent name other) :
    Inv (moved σ node parent name) := by
  have unique : ∀ {parent' name' one other}, Entry (moved σ node parent name) parent' name' one →
      Entry (moved σ node parent name) parent' name' other → one = other := by
    intro parent' name' one other entry entry'
    rcases placed_entry entry with ⟨here, ⟨⟩, rfl⟩ | ⟨here, old⟩ <;>
    rcases placed_entry entry' with ⟨there, isParent, isName⟩ | ⟨there, old'⟩
    · rw [here, there]
    · exact (fresh _ old').elim
    · rw [← Option.some.inj isParent, ← isName] at old
      exact (fresh _ old).elim
    · exact inv.unique old old'
  refine ⟨inv.toCore.place notRoot unique fun _ _ => Option.some_ne_none _, ?_, ?_⟩
  · intro _ isOpen
    have old := inv.handle isOpen
    exact ⟨placed_live.mpr old.1, placed_link.trans old.2⟩
  · intro other live isOrphan
    unfold moved at isOrphan
    by_cases here : other = node
    · rw [here, placed_here] at isOrphan
      cases isOrphan
    rw [placed_record here] at isOrphan
    exact inv.orphan (placed_live.mp live) isOrphan

end

end AerOS.Proof.Vfs
