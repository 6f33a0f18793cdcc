import AerOS.Spec.Vfs

namespace AerOS.Proof.Vfs
open Lib.Action AerOS.Vfs Function List

variable {components : List Name} {name path : Name} {node parent start : NodeId}

section
variable {σ : Vfs} {α β : Type} {ok : β → Vfs → Prop} {err : Fault → Vfs → Prop}

section
variable (herr : ∀ fault, err fault σ)
include herr

theorem wp_refuseIf {condition : Prop} [Decidable condition] {error : VfsError} {f : Unit → M β}
    (h : ¬ condition → wp (f ()) ok err σ) : wp (refuseIf condition error >>= f) ok err σ := by
  rw [wp_bind, refuseIf]
  by_cases met : condition
  · rw [if_pos met]
    exact herr _
  rw [if_neg met]
  exact h met

theorem wp_guard {env : Env} {check : Nat} {protection : Protection} {change : Bool} {f : Unit → M β}
    (h : wp (f ()) ok err σ) : wp (guardProtection env check protection change >>= f) ok err σ :=
  wp_refuseIf herr fun _ => h

theorem wp_lift {x : Except Fault α} {f : α → M β}
    (h : ∀ value, x = .ok value → wp (f value) ok err σ) : wp (lift x >>= f) ok err σ := by
  cases x with
  | error fault => exact herr fault
  | ok value => exact h value rfl

end

theorem wp_get_bind {f : Vfs → M β} (h : wp (f σ) ok err σ) : wp (get >>= f) ok err σ := by
  exact h

theorem wp_modify_bind {change : Vfs → Vfs} {f : Unit → M β} (h : wp (f ()) ok err (change σ)) :
    wp (modify change >>= f) ok err σ := by
  exact h

end

theorem bind_ok {α β ε : Type} {x : Except ε α} {f : α → Except ε β} {b : β} (h : x >>= f = .ok b) :
    ∃ a, x = .ok a ∧ f a = .ok b := by
  cases x with
  | error e => cases h
  | ok a => exact ⟨a, rfl, h⟩

theorem mapError_ok {α : Type} {x : Except VfsError α} {value : α} (h : x.mapError Fault.refused = .ok value) :
    x = .ok value := by
  cases x with
  | error error => cases h
  | ok _ => simpa [Except.mapError] using h

variable {σ : Vfs}

theorem mem_ids : node ∈ σ.ids ↔ node.val < σ.nodeCount := by
  simp only [ids, mem_filterMap, mem_range]
  constructor
  · rintro ⟨i, below, found⟩
    split at found
    · simp only [Option.some.injEq] at found
      rw [← found]
      exact below
    · cases found
  · intro below
    exact ⟨node.val, below, by simp⟩

def Bounded (σ : Vfs) : Prop := ∀ node, σ.Live node → node.val < σ.nodeCount

structure Entry (σ : Vfs) (parent : NodeId) (name : Name) (node : NodeId) : Prop where
  live : σ.Live node
  parent : (σ.nodes node).parent = some parent
  name : (σ.nodes node).name = name

theorem Entry.congr {σ' : Vfs} (entry : Entry σ parent name node) (record : σ'.nodes node = σ.nodes node) :
    Entry σ' parent name node := by
  obtain ⟨live, isParent, isName⟩ := entry
  rw [Live, ← record] at live
  rw [← record] at isParent isName
  exact ⟨live, isParent, isName⟩

theorem findChild_entry (h : σ.findChild parent name = some node) : Entry σ parent name node := by
  have found := find?_some h
  simp only [decide_eq_true_eq] at found
  exact ⟨found.1, found.2.1, found.2.2⟩

theorem findChild_none (bounded : Bounded σ)
    (h : σ.findChild parent name = none) : ¬ Entry σ parent name node := by
  intro entry
  have := find?_eq_none.mp h node (mem_ids.mpr (bounded node entry.live))
  simp only [decide_eq_true_eq] at this
  exact this ⟨entry.live, entry.parent, entry.name⟩

theorem heir_some {heir : NodeId} (h : σ.heir node = some heir) :
    σ.Live heir ∧ (σ.nodes heir).link = some node := by
  have found := find?_some h
  simp only [decide_eq_true_eq] at found
  exact found

theorem heir_none {other : NodeId} (bounded : Bounded σ) (h : σ.heir node = none) (live : σ.Live other) :
    (σ.nodes other).link ≠ some node := by
  intro linked
  have := find?_eq_none.mp h other (mem_ids.mpr (bounded other live))
  simp only [decide_eq_true_eq] at this
  exact this ⟨live, linked⟩

theorem inUse_iff :
    σ.inUse node = true ↔ ∃ slot, (σ.handles slot).isOpen = true ∧ (σ.handles slot).node = node := by
  simp [inUse]

theorem freeFile_unused {file : FileId} (h : σ.freeFile = some file) : (σ.files file).used = false := by
  have found := find?_some h
  simpa using found

theorem enter_ok {child : NodeId} (entered : σ.enter start name = .ok child) :
    (σ.nodes start).kind = .directory ∧ σ.findChild start name = some child := by
  unfold enter at entered
  by_cases isDirectory : (σ.nodes start).kind ≠ .directory
  · rw [if_pos isDirectory] at entered
    cases entered
  rw [if_neg isDirectory] at entered
  cases found : σ.findChild start name with
  | none =>
    rw [found] at entered
    cases entered
  | some _ =>
    rw [found] at entered
    exact ⟨not_not.mp isDirectory, congrArg some (Except.ok.inj entered)⟩

theorem descend_of_enter {last : NodeId}
    (walk : components.foldlM σ.enter start = .ok last) (directory : (σ.nodes last).kind = .directory) :
    components.foldlM σ.descend start = .ok last := by
  induction components generalizing start with
  | nil => exact walk
  | cons component rest ih =>
    rw [foldlM_cons] at walk ⊢
    obtain ⟨child, entered, walk⟩ := bind_ok walk
    have childDirectory : (σ.nodes child).kind = .directory := by
      cases rest with
      | nil =>
        cases walk
        exact directory
      | cons _ rest =>
        obtain ⟨_, next, -⟩ := bind_ok walk
        exact (enter_ok next).1
    simp only [descend, (enter_ok entered).2, childDirectory, bind, Except.bind]
    exact ih walk

theorem resolve_entry {parsed : List Name} (parses : parse path = .ok parsed)
    (nonempty : parsed ≠ []) (found : σ.resolve path = .ok node) :
    ∃ parent name, σ.entryOf path = some (parent, name) ∧ σ.findChild parent name = some node := by
  obtain ⟨_, last, rfl⟩ := (eq_nil_or_concat' parsed).resolve_left nonempty
  simp only [resolve, parses, bind, Except.bind] at found
  rw [foldlM_append] at found
  obtain ⟨parent, walk, entered⟩ := bind_ok found
  obtain ⟨child, entered, same⟩ := bind_ok entered
  cases same
  obtain ⟨isDirectory, child⟩ := enter_ok entered
  refine ⟨parent, last, ?_, child⟩
  simp [entryOf, parses, resolveParent, descend_of_enter walk isDirectory, bind, Except.bind, pure, Except.pure]

structure Named (σ : Vfs) (node : NodeId) : Prop where
  live : σ.Live node
  parent : (σ.nodes node).parent ≠ none

theorem Entry.named (entry : Entry σ parent name node) : Named σ node := ⟨entry.live, by simp [entry.parent]⟩

theorem enter_named (named : Named σ start)
    (walk : components.foldlM σ.enter start = .ok node) : Named σ node := by
  induction components generalizing start with
  | nil =>
    cases walk
    exact named
  | cons component _ ih =>
    rw [foldlM_cons] at walk
    obtain ⟨child, entered, walk⟩ := bind_ok walk
    exact ih (findChild_entry (enter_ok entered).2).named walk

section
variable (root : Named σ rootNode)
include root

theorem resolve_named (found : σ.resolve path = .ok node) : Named σ node := by
  obtain ⟨_, -, walk⟩ := bind_ok found
  exact enter_named root walk

theorem follow_content {hops : Nat} (live : σ.Live start)
    (found : σ.follow hops start = .ok node) : ∃ name, σ.Live name ∧ node = σ.content name := by
  induction hops generalizing start with
  | zero => cases found
  | succ hops ih =>
    rw [follow] at found
    by_cases symlink : (σ.nodes start).kind ≠ .symlink
    · rw [if_pos symlink] at found
      cases found
      exact ⟨start, live, rfl⟩
    rw [if_neg symlink] at found
    obtain ⟨path, -, found⟩ := bind_ok found
    obtain ⟨_, next, found⟩ := bind_ok found
    exact ih (resolve_named root (mapError_ok next)).live found

theorem resolveFollowing_content
    (found : σ.resolveFollowing path = .ok node) : ∃ name, σ.Live name ∧ node = σ.content name := by
  obtain ⟨_, start, found⟩ := bind_ok found
  exact follow_content root (resolve_named root (mapError_ok start)).live found

end

structure Rooted (σ : Vfs) : Prop where
  root : σ.nodes rootNode = .root
  bounded : Bounded σ

theorem Rooted.named {σ : Vfs} (rooted : Rooted σ) : Named σ rootNode :=
  ⟨by simp [Live, rooted.root, Node.root], by simp [rooted.root, Node.root]⟩

structure Core (σ : Vfs) : Prop extends Rooted σ where
  unique : ∀ {parent name node other}, Entry σ parent name node → Entry σ parent name other → node = other
  link : ∀ {node target}, σ.Live node → (σ.nodes node).link = some target →
    (σ.nodes node).storage = none ∧ (σ.nodes target).kind = .file ∧ (σ.nodes target).link = none ∧
      (σ.nodes target).parent ≠ none
  stored : ∀ {node file}, σ.Live node → (σ.nodes node).storage = some file → (σ.files file).used = true
  single : ∀ {node other file}, σ.Live node → σ.Live other → (σ.nodes node).storage = some file →
    (σ.nodes other).storage = some file → node = other
  owner : ∀ {file}, (σ.files file).used = true → ∃ node, σ.Live node ∧ (σ.nodes node).storage = some file

structure Inv (σ : Vfs) : Prop extends Core σ where
  handle : ∀ {slot}, (σ.handles slot).isOpen = true →
    σ.Live (σ.handles slot).node ∧ (σ.nodes (σ.handles slot).node).link = none
  orphan : ∀ {node}, σ.Live node → (σ.nodes node).parent = none → σ.inUse node = true

theorem Core.findChild_iff {σ : Vfs} (inv : Core σ) :
    σ.findChild parent name = some node ↔ Entry σ parent name node := by
  refine ⟨findChild_entry, fun entry => ?_⟩
  cases found : σ.findChild parent name with
  | none => exact absurd entry (findChild_none inv.bounded found)
  | some _ => rw [inv.unique entry (findChild_entry found)]

theorem Core.content {σ : Vfs} (inv : Core σ) (live : σ.Live node) :
    σ.Live (σ.content node) ∧ (σ.nodes (σ.content node)).link = none := by
  unfold AerOS.Vfs.content
  cases linked : (σ.nodes node).link with
  | none => exact ⟨live, linked⟩
  | some _ =>
    obtain ⟨-, kind, noLink, -⟩ := inv.link live linked
    exact ⟨by simp [Live, kind], noLink⟩

theorem Inv.unopened {σ : Vfs} (inv : Inv σ) (linked : (σ.nodes node).link ≠ none) :
    σ.inUse node = false := by
  rw [Bool.eq_false_iff]
  intro used
  obtain ⟨_, isOpen, rfl⟩ := inUse_iff.mp used
  exact linked (inv.handle isOpen).2

structure Free (σ : Vfs) (index : NodeId) : Prop where
  notRoot : index ≠ rootNode
  notLive : ¬ σ.Live index

def insert (σ : Vfs) (index : NodeId) (node : Node) : Vfs :=
  { σ with nodes := update σ.nodes index node, nodeCount := max σ.nodeCount (index + 1) }

section
variable {σ : Vfs} {ok : NodeId → Vfs → Prop} {err : Fault → Vfs → Prop}

theorem wp_addNode {clock : NodeId → Nat} {kind : NodeKind} {mode : UInt16}
    {data : List UInt8} (rooted : Rooted σ) (herr : err (.refused .nodeLimit) σ)
    (hok : ∀ index, Free σ index →
      ok index (insert σ index { Node.named kind parent name mode data with modified := clock index })) :
    wp (addNode clock kind parent name mode data) ok err σ := by
  unfold addNode
  rw [wp_bind, wp_get]
  cases found : σ.ids.find? fun i => i ≠ rootNode ∧ (σ.nodes i).kind = .empty with
  | some index =>
    have free := find?_some found
    simp only [decide_eq_true_eq] at free
    have below := mem_ids.mp (mem_of_find?_eq_some found)
    have same : max σ.nodeCount (index + 1) = σ.nodeCount := by omega
    have goal := hok index ⟨free.1, not_not.mpr free.2⟩
    rw [insert, same] at goal
    exact goal
  | none =>
    by_cases room : σ.nodeCount < maxNodes
    · rw [dif_pos room]
      have notLive : ¬ σ.Live ⟨σ.nodeCount, room⟩ := fun live => (rooted.bounded _ live).false
      have notRoot : (⟨σ.nodeCount, room⟩ : NodeId) ≠ rootNode := fun same => notLive (same ▸ rooted.named.live)
      have goal := hok ⟨σ.nodeCount, room⟩ ⟨notRoot, notLive⟩
      have same : max σ.nodeCount (σ.nodeCount + 1) = σ.nodeCount + 1 := by omega
      rw [insert, same] at goal
      exact goal
    · rw [dif_neg room]
      exact herr

end

inductive Attached (S : Prop) (σ : Vfs) (node : Node) : (FileId → MutableFile) → Prop where
  | plain : node.link = none → node.storage = none → Attached S σ node σ.files
  | link {target : NodeId} : node.link = some target → node.storage = none → (σ.nodes target).kind = .file →
      (S → (σ.nodes target).link = none) → (S → (σ.nodes target).parent ≠ none) → Attached S σ node σ.files
  | file {slot : FileId} {file : MutableFile} : node.link = none → node.storage = some slot →
      (σ.files slot).used = false → file.used = true → Attached S σ node (update σ.files slot file)

def Checked (σ : Vfs) (node : NodeId) : Prop :=
  σ.mutableSubtree node = .ok true ∧ isMutableMount (σ.nodes node) = false

inductive Change (C S W : Prop) (T : List (NodeId × Name)) (σ : Vfs) : Vfs → Prop where
  | moded (node : NodeId) (mode : UInt16) : σ.mutableSubtree node = .ok true →
      (C → isMutableMount (σ.nodes node) = false) →
      Change C S W T σ (σ.setNode node { σ.nodes node with mode := mode })
  | stamped (node : NodeId) (now : Nat) : (σ.nodes node).storage ≠ none → Change C S W T σ (σ.touch node now)
  | written (slot : FileId) (file : MutableFile) : W → file.used = (σ.files slot).used →
      Change C S W T σ (σ.setFile slot file)
  | cleared (slot : FileId) (file : MutableFile) : (σ.files slot).used = false → file.used = false →
      Change C S W T σ (σ.setFile slot file)
  | added (index parent : NodeId) (node : Node) (files : FileId → MutableFile) : Free σ index →
      node.kind ≠ .empty → node.parent = some parent → σ.findChild parent node.name = none →
      (C → σ.mutableSubtree parent = .ok true) → Attached S σ node files →
      Change C S W T σ { insert σ index node with files := files }
  | unlinked (node : NodeId) : Checked σ node → σ.Live node →
      (∀ parent name, Entry σ parent name node → (parent, name) ∈ T) → (σ.nodes node).link ≠ none →
      Change C S W T σ (σ.setNode node .empty)
  | removed (node : NodeId) : Checked σ node → σ.Live node → (∀ parent name, Entry σ parent name node → (parent, name) ∈ T) →
      σ.heir node = none → Change C S W T σ (σ.discard node)
  | inherited (node heir : NodeId) : Checked σ node →
      (∀ parent name, Entry σ parent name node → (parent, name) ∈ T) → (σ.nodes node).link = none →
      σ.heir node = some heir → Change C S W T σ (σ.inherit node heir)
  | renamed (node parent : NodeId) (name : Name) : Checked σ node → σ.Live node →
      (∀ parent name, Entry σ parent name node → (parent, name) ∈ T) → σ.mutableSubtree parent = .ok true →
      σ.findChild parent name = none →
      Change C S W T σ (σ.setNode node { σ.nodes node with parent := some parent, name := name })
  | replaced (node parent other : NodeId) (name : Name) : Checked σ node → σ.Live node →
      (∀ parent name, Entry σ parent name node → (parent, name) ∈ T) → σ.mutableSubtree parent = .ok true →
      σ.findChild parent name = some other → other ≠ node → (parent, name) ∈ T → (S → σ.heir other = none) →
      Change C S W T σ
        ((σ.discard other).setNode node { σ.nodes node with parent := some parent, name := name })
  | opened (slot : HandleSlot) (name : NodeId) (generation : Nat) : (σ.handles slot).isOpen = false →
      σ.Live name → Change C S W T σ (σ.setHandle slot ⟨σ.content name, generation, 0, true⟩)
  | sought (slot : HandleSlot) (cursor : Nat) :
      Change C S W T σ (σ.setHandle slot { σ.handles slot with cursor := cursor })

def Changes (C S W : Prop) (T : List (NodeId × Name)) : Vfs → Vfs → Prop := Relation.ReflTransGen (Change C S W T)

end AerOS.Proof.Vfs
