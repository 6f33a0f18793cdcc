import AerOS.Proof.Vfs.Integrity

namespace AerOS.Proof.Vfs
open Lib AerOS.Vfs

variable {path : List Name} {record : Node}

def Within (path : List Name) : Prop := ∃ mount rest, path = mount :: rest ∧ (mount = ascii "tmp" ∨ mount = ascii "data")

theorem writable_append (h : Writable path) (more : List Name) : Writable (path ++ more) := by
  obtain ⟨mount, rest, rfl, nonempty, isMount⟩ := h
  exact ⟨mount, rest ++ more, rfl, by simp [nonempty], isMount⟩

theorem Within.child {path : List Name} (h : Within path) (name : Name) : Writable (path ++ [name]) := by
  obtain ⟨mount, rest, rfl, isMount⟩ := h
  exact ⟨mount, rest ++ [name], rfl, by simp, isMount⟩

theorem within_of_child {name : Name} (h : Writable (path ++ [name])) : Within path := by
  obtain ⟨_, _, eq, nonempty, isMount⟩ := h
  cases path with
  | nil =>
    simp only [List.nil_append, List.cons.injEq] at eq
    exact (nonempty eq.2.symm).elim
  | cons head tail =>
    simp only [List.cons_append, List.cons.injEq] at eq
    exact ⟨head, tail, rfl, eq.1 ▸ isMount⟩

def Below (σ : Vfs) (node : NodeId) : Prop := ∀ path, σ.PathOf node path → Writable path

def Held (σ : Vfs) : Prop := ∀ node, (σ.nodes node).storage ≠ none ∨ (σ.nodes node).link ≠ none → Below σ node

section
variable {σ σ' : Vfs} {node : NodeId}

theorem pathOf_root (h : σ.PathOf rootNode path) : path = [] := by
  generalize isRoot : rootNode = root at h
  cases h with
  | root => rfl
  | child notRoot => exact (notRoot isRoot.symm).elim

theorem pathOf_parent (notRoot : node ≠ rootNode) (h : σ.PathOf node path) :
    ∃ parent front, σ.Live node ∧ (σ.nodes node).parent = some parent ∧ σ.PathOf parent front ∧
      path = front ++ [(σ.nodes node).name] := by
  cases h with
  | root => exact (notRoot rfl).elim
  | child _ live isParent up => exact ⟨_, _, live, isParent, up, rfl⟩

theorem within_of_reach (root : σ.nodes rootNode = .root) {turns : Nat}
    (reach : σ.mutableSubtreeIn turns node = .ok true) (h : σ.PathOf node path) :
    Within path ∧ (isMutableMount (σ.nodes node) = false → Writable path) := by
  induction turns generalizing node path with
  | zero => cases reach
  | succ turns ih =>
    have notRoot : node ≠ rootNode := by
      rintro rfl
      simp [mutableSubtreeIn, root, Node.root, isMutableMount, ascii] at reach
    obtain ⟨parent, _, live, isParent, up, rfl⟩ := pathOf_parent notRoot h
    simp only [mutableSubtreeIn, isParent] at reach
    by_cases atRoot : parent = rootNode
    · rw [if_pos atRoot] at reach
      simp only [Except.ok.injEq, decide_eq_true_eq] at reach
      subst atRoot
      rw [pathOf_root up]
      refine ⟨?_, fun notMount => ?_⟩
      · have isMount := reach.2
        simp only [isMutableMount, decide_eq_true_eq] at isMount
        exact ⟨_, [], rfl, isMount.2⟩
      · rw [reach.2] at notMount
        cases notMount
    · have alive : ¬ (node = rootNode ∨ (σ.nodes node).kind = .empty) := by
        rintro (same | dead)
        · exact notRoot same
        · exact live dead
      rw [if_neg atRoot, if_neg alive] at reach
      have writable := (ih reach up).1.child (σ.nodes node).name
      obtain ⟨mount, rest, eq, -, isMount⟩ := writable
      exact ⟨⟨mount, rest, eq, isMount⟩, fun _ => (ih reach up).1.child _⟩

theorem below_of_checked (root : σ.nodes rootNode = .root) (checked : Checked σ node) : Below σ node :=
  fun _ h => (within_of_reach root checked.1 h).2 checked.2

theorem within_parent (below : Below σ node) (notRoot : node ≠ rootNode) (live : σ.Live node) {parent : NodeId}
    (isParent : (σ.nodes node).parent = some parent) (h : σ.PathOf parent path) : Within path :=
  within_of_child (below _ (.child notRoot live isParent h))

theorem below_notRoot (root : σ.nodes rootNode = .root) (below : Below σ node) : node ≠ rootNode := by
  rintro rfl
  obtain ⟨_, _, eq, -⟩ := below [] (.root (by simp [Live, root, Node.root]))
  cases eq

theorem below_dead (notRoot : node ≠ rootNode) (gone : ¬ σ.Live node ∨ (σ.nodes node).parent = none) : Below σ node := by
  intro _ h
  obtain ⟨parent, _, live, isParent, -, -⟩ := pathOf_parent notRoot h
  rcases gone with dead | isOrphan
  · exact (dead live).elim
  rw [isOrphan] at isParent
  cases isParent

variable {X : NodeId → Prop}

def Placed (σ σ' : Vfs) (X : NodeId → Prop) : Prop :=
  ∀ node, X node → node ≠ rootNode ∧ (σ'.Live node → ∀ parent, (σ'.nodes node).parent = some parent →
    ∀ path, σ.PathOf parent path → Within path)

section
variable (same : ∀ node, ¬ X node → σ'.nodes node = σ.nodes node)
include same

theorem path_transfer (below : ∀ node, X node → Below σ node)
    (h : σ.PathOf node path) (outside : ¬ Writable path) : σ'.PathOf node path ∧ ¬ X node := by
  induction h with
  | root live =>
    have untouched : ¬ X rootNode := fun changed => outside (below _ changed _ (.root live))
    exact ⟨.root (by rw [Live, same _ untouched]; exact live), untouched⟩
  | @child node _ path notRoot live isParent up ih =>
    have untouched : ¬ X node := fun changed => outside (below _ changed _ (.child notRoot live isParent up))
    have record := same _ untouched
    obtain ⟨up', -⟩ := ih fun writable => outside (writable_append writable _)
    refine ⟨?_, untouched⟩
    rw [← record]
    exact .child notRoot (by rw [Live, record]; exact live) (by rw [record]; exact isParent) up'

theorem path_cases
    (h : σ'.PathOf node path) : σ.PathOf node path ∨ ∃ changed front back, X changed ∧ σ'.PathOf changed front ∧
      path = front ++ back := by
  induction h with
  | root live =>
    by_cases changed : X rootNode
    · exact .inr ⟨rootNode, [], [], changed, .root live, rfl⟩
    rw [Live, same _ changed] at live
    exact .inl (.root live)
  | @child node _ path notRoot live isParent up ih =>
    by_cases changed : X node
    · exact .inr ⟨node, _, [], changed, .child notRoot live isParent up, by simp⟩
    rcases ih with old | ⟨other, front, back, isChanged, through, rfl⟩
    · have record := same _ changed
      rw [Live, record] at live
      rw [record] at isParent ⊢
      exact .inl (.child notRoot live isParent old)
    · exact .inr ⟨other, front, back ++ [(σ'.nodes node).name], isChanged, through, by simp⟩

theorem below_changed (place : Placed σ σ' X) (changed : X node) : Below σ' node := by
  intro path h
  -- The part of the path up to the last changed node before this one is shorter.
  generalize long : path.length = length
  induction length using Nat.strong_induction_on generalizing node path with
  | h length ih =>
    obtain ⟨notRoot, within⟩ := place node changed
    obtain ⟨parent, front, live, isParent, up, rfl⟩ := pathOf_parent notRoot h
    rcases path_cases same up with old | ⟨_, first, _, isChanged, through, rfl⟩
    · exact (within live parent isParent front old).child _
    have shorter : first.length < length := by
      rw [← long]
      simp
    have writable := ih first.length shorter isChanged first through rfl
    rw [List.append_assoc]
    exact writable_append writable _

end

theorem change_outside (held : Held σ) (same : ∀ node, ¬ X node → σ'.nodes node = σ.nodes node)
    (old : ∀ node, X node → Below σ node) (place : Placed σ σ' X) : Held σ' ∧ SameOutside σ σ' := by
  have new : ∀ node, X node → Below σ' node := fun node changed => below_changed same place changed
  have back : ∀ node, ¬ X node → σ.nodes node = σ'.nodes node := fun node untouched => (same node untouched).symm
  refine ⟨?_, ?_⟩
  · intro node has path h
    by_contra outside
    obtain ⟨before, untouched⟩ := path_transfer back new h outside
    rw [same node untouched] at has
    exact outside (held node has path before)
  · intro node path outside
    refine ⟨⟨fun h => (path_transfer back new h outside).1, fun h => (path_transfer same old h outside).1⟩, fun h => ?_⟩
    exact same node (path_transfer back new h outside).2

section
variable (h : SameOutside σ σ')
include h

theorem sameOutside_trans {σ'' : Vfs} (h' : SameOutside σ' σ'') : SameOutside σ σ'' := by
  intro node path outside
  obtain ⟨paths, records⟩ := h node path outside
  obtain ⟨paths', records'⟩ := h' node path outside
  exact ⟨paths'.trans paths, fun there => (records' there).trans (records (paths'.mp there))⟩

theorem below_of_same (below : Below σ node) : Below σ' node := by
  intro path there
  by_contra outside
  exact outside (below path ((h node path outside).1.mp there))

theorem within_of_same {parent : NodeId} (within : ∀ path, σ.PathOf parent path → Within path) :
    ∀ path, σ'.PathOf parent path → Within path := by
  intro path there
  by_contra outside
  have notWritable : ¬ Writable path := by
    rintro ⟨mount, rest, eq, -, isMount⟩
    exact outside ⟨mount, rest, eq, isMount⟩
  exact outside (within path ((h parent path notWritable).1.mp there))

end

structure Stable (σ : Vfs) : Prop extends Rooted σ where
  held : Held σ

theorem change_stable {X : NodeId → Prop} (stable : Stable σ) (same : ∀ node, ¬ X node → σ'.nodes node = σ.nodes node)
    (count : σ.nodeCount ≤ σ'.nodeCount) (alive : ∀ node, X node → σ'.Live node → node.val < σ'.nodeCount)
    (old : ∀ node, X node → Below σ node) (place : Placed σ σ' X) : Stable σ' ∧ SameOutside σ σ' := by
  obtain ⟨held, outside⟩ := change_outside stable.held same old place
  refine ⟨⟨⟨?_, ?_⟩, held⟩, outside⟩
  · rw [same rootNode fun changed => (place _ changed).1 rfl, stable.root]
  intro node live
  by_cases changed : X node
  · exact alive node changed live
  rw [Live, same node changed] at live
  exact (stable.bounded node live).trans_le count

section
variable (stable : Stable σ)
include stable

theorem nodes_stable (nodes : σ'.nodes = σ.nodes) (count : σ'.nodeCount = σ.nodeCount) :
    Stable σ' ∧ SameOutside σ σ' := by
  refine change_stable (X := fun _ => False) stable (fun _ _ => by rw [nodes]) count.ge ?_ ?_ ?_ <;>
    exact fun _ absurd => absurd.elim

theorem setNode_stable {r : Node} (below : Below σ node) (live : r.kind ≠ .empty → σ.Live node)
    (place : r.kind ≠ .empty → ∀ parent, r.parent = some parent → ∀ path, σ.PathOf parent path → Within path) :
    Stable (σ.setNode node r) ∧ SameOutside σ (σ.setNode node r) := by
  have here : (σ.setNode node r).nodes node = r := by simp [setNode]
  have notRoot := below_notRoot stable.root below
  refine change_stable (X := (· = node)) stable ?_ le_rfl ?_ ?_ ?_
  · intro other ne
    simp [setNode, ne]
  · rintro other rfl isLive
    rw [Live, here] at isLive
    exact stable.bounded other (live isLive)
  · rintro other rfl
    exact below
  rintro other rfl
  refine ⟨notRoot, fun isLive parent isParent => ?_⟩
  rw [Live, here] at isLive
  rw [here] at isParent
  exact place isLive parent isParent

section
variable (below : Below σ node)
include below

theorem record_stable
    (kind : record.kind = (σ.nodes node).kind) (parent : record.parent = (σ.nodes node).parent) :
    Stable (σ.setNode node record) ∧ SameOutside σ (σ.setNode node record) := by
  refine setNode_stable stable below (fun live => ?_) fun live _ isParent _ h => ?_
  · rw [kind] at live
    exact live
  rw [kind] at live
  rw [parent] at isParent
  exact within_parent below (below_notRoot stable.root below) live isParent h

theorem gone_stable (live : record.kind ≠ .empty → σ.Live node)
    (gone : record.kind = .empty ∨ record.parent = none) :
    Stable (σ.setNode node record) ∧ SameOutside σ (σ.setNode node record) := by
  refine setNode_stable stable below live fun isLive _ isParent => ?_
  rcases gone with dead | isOrphan
  · exact (isLive dead).elim
  rw [isOrphan] at isParent
  cases isParent

theorem release_stable : Stable (σ.releaseNode node) ∧ SameOutside σ (σ.releaseNode node) := by
  unfold releaseNode
  have dead : ∀ σ₁ : Vfs, Stable σ₁ → Below σ₁ node → Stable (σ₁.setNode node .empty) ∧ SameOutside σ₁ (σ₁.setNode node .empty) :=
    fun σ₁ stable₁ below₁ => gone_stable stable₁ below₁ (fun live => (live rfl).elim) (.inl rfl)
  cases (σ.nodes node).storage with
  | none => exact dead σ stable below
  | some file =>
    obtain ⟨stable₁, outside₁⟩ := @nodes_stable σ (σ.setFile file .empty) stable rfl rfl
    obtain ⟨stable₂, outside₂⟩ := dead _ stable₁ (below_of_same outside₁ below)
    exact ⟨stable₂, sameOutside_trans outside₁ outside₂⟩

theorem discard_stable (live : σ.Live node) : Stable (σ.discard node) ∧ SameOutside σ (σ.discard node) := by
  unfold AerOS.Vfs.discard
  split
  · exact gone_stable stable below (fun _ => live) (.inr rfl)
  · exact release_stable stable below

end

end

section
variable {C S W : Prop} {T : List (NodeId × Name)}

theorem change_confined (stable : Stable σ) (c : C) (change : Change C S W T σ σ') : Stable σ' ∧ SameOutside σ σ' := by
  have root := stable.root
  cases change with
  | moded node _ reach below =>
    exact record_stable stable (below_of_checked root ⟨reach, below c⟩) rfl rfl
  | stamped node _ stored => exact record_stable stable (stable.held node (.inl stored)) rfl rfl
  | written slot file => exact nodes_stable stable rfl rfl
  | cleared slot file => exact nodes_stable stable rfl rfl
  | added index parent node files free _ isParent _ reach _ =>
    have here : ({ insert σ index node with files := files } : Vfs).nodes index = node := by simp [insert]
    refine change_stable (X := (· = index)) stable (fun other ne => insert_nodes_ne ne) (by simp [insert]) ?_ ?_ ?_
    · rintro other rfl -
      simp [insert]
    · rintro other rfl
      exact below_dead free.notRoot (.inl free.notLive)
    rintro other rfl
    refine ⟨free.notRoot, fun _ up isUp path h => ?_⟩
    rw [here, isParent, Option.some.injEq] at isUp
    subst isUp
    exact (within_of_reach root (reach c) h).1
  | unlinked node checked live =>
    exact gone_stable stable (below_of_checked root checked) (fun _ => live) (.inl rfl)
  | removed node checked live => exact discard_stable stable (below_of_checked root checked) live
  | inherited node heir checked touched plain found =>
    obtain ⟨present, linked⟩ := heir_some found
    have below := below_of_checked root checked
    have heirBelow := stable.held heir (.inr (by simp [linked]))
    have ne : node ≠ heir := heir_ne plain found
    refine change_stable (X := fun other => other = node ∨ other = heir) stable ?_ le_rfl ?_ ?_ ?_
    · intro other apart
      obtain ⟨apart, apart'⟩ := not_or.mp apart
      exact inherit_record apart' apart
    · intro other _ isLive
      exact stable.bounded other ((inherit_live ne).mp isLive).2
    · rintro other (rfl | rfl)
      · exact below
      · exact heirBelow
    have heirNotRoot := below_notRoot root heirBelow
    rintro other (rfl | rfl)
    · refine ⟨below_notRoot root below, fun _ up isUp path h => ?_⟩
      rw [inherit_nodes, if_neg ne, if_pos rfl] at isUp
      exact within_parent heirBelow heirNotRoot present isUp h
    · exact ⟨heirNotRoot, fun isLive => (((inherit_live ne).mp isLive).1 rfl).elim⟩
  | renamed node parent name checked live touched reach =>
    refine setNode_stable stable (below_of_checked root checked) (fun _ => live) fun _ up isUp path h => ?_
    cases isUp
    exact (within_of_reach root reach h).1
  | replaced node parent other name checked live touched reach found ne =>
    have entry := findChild_entry found
    have otherBelow : Below σ other := by
      intro path h
      have otherNotRoot : other ≠ rootNode := by
        rintro rfl
        have isRoot := entry.parent
        rw [root] at isRoot
        exact reach_notRoot root reach (Option.some.inj isRoot).symm
      obtain ⟨up, _, -, isUp, upPath, rfl⟩ := pathOf_parent otherNotRoot h
      rw [entry.parent, Option.some.injEq] at isUp
      subst isUp
      exact (within_of_reach root reach upPath).1.child _
    obtain ⟨stable₁, outside₁⟩ := discard_stable stable otherBelow entry.live
    have record := discard_nodes_ne (σ := σ) ne.symm
    have moved := setNode_stable stable₁ (r := { σ.nodes node with parent := some parent, name := name })
      (below_of_same outside₁ (below_of_checked root checked)) (fun _ => by rw [Live, record]; exact live)
      (fun _ up isUp path h => by
        cases isUp
        exact within_of_same outside₁ (fun path h => (within_of_reach root reach h).1) path h)
    exact ⟨moved.1, sameOutside_trans outside₁ moved.2⟩
  | opened slot name _ free live => exact nodes_stable stable rfl rfl
  | sought slot _ => exact nodes_stable stable rfl rfl

theorem changes_confined (stable : Stable σ) (c : C) (changes : Changes C S W T σ σ') : Stable σ' ∧ SameOutside σ σ' := by
  induction changes with
  | refl => exact ⟨stable, fun _ _ _ => ⟨Iff.rfl, fun _ => rfl⟩⟩
  | tail _ last ih =>
    obtain ⟨stable', outside'⟩ := change_confined ih.1 c last
    exact ⟨stable', sameOutside_trans ih.2 outside'⟩

end

theorem closed_stable (stable : Stable σ) {slot : HandleSlot} {generation : Nat} :
    Stable (closed σ slot generation) ∧ SameOutside σ (closed σ slot generation) := by
  unfold closed
  generalize (σ.handles slot).node = node
  obtain ⟨stable₁, outside₁⟩ := @nodes_stable σ (σ.setHandle slot ⟨node, generation, 0, false⟩) stable rfl rfl
  dsimp only
  split
  · rename_i last
    have notRoot : node ≠ rootNode := by
      rintro rfl
      simp [stable.root, Node.root] at last
    obtain ⟨stable₂, outside₂⟩ := release_stable stable₁ (below_dead notRoot (.inr last.1))
    exact ⟨stable₂, sameOutside_trans outside₁ outside₂⟩
  · exact ⟨stable₁, outside₁⟩

theorem step_confined (call : Env × Op) (stable : Stable σ) (confined : Confined σ call) :
    Stable (step σ call) ∧ SameOutside σ (step σ call) := by
  obtain ⟨env, op⟩ := call
  by_cases isClose : ∃ descriptor, op = .close descriptor
  · obtain ⟨descriptor, rfl⟩ := isClose
    rcases step_close (σ := σ) env descriptor with idle | ⟨_, _, -, closes⟩
    · rw [idle]
      exact ⟨stable, fun _ _ _ => ⟨Iff.rfl, fun _ => rfl⟩⟩
    rw [closes]
    exact closed_stable stable
  · have changes := perform_changes (S := False) stable.toRooted (fun absurd => absurd.elim) env op fun descriptor same =>
      isClose ⟨descriptor, same⟩
    exact changes_confined stable confined changes

theorem mounted_stable (clock : NodeId → Nat) (fat : Fat) (entries : List InitramfsEntry) :
    Stable (mounted clock fat entries) := by
  have m := mounted_mounting clock fat entries
  refine ⟨m.toRooted, fun node has => ?_⟩
  by_cases live : (mounted clock fat entries).Live node
  · rcases has with stored | linked
    · obtain ⟨data, isData, isParent⟩ := m.onlyData live stored
      intro _ h
      have notRoot : node ≠ rootNode := by
        rintro rfl
        simp [m.root, Node.root] at stored
      obtain ⟨parent, _, -, isParent', up, rfl⟩ := pathOf_parent notRoot h
      rw [isParent, Option.some.injEq] at isParent'
      subst isParent'
      obtain ⟨root, _, -, isRoot, up', rfl⟩ := pathOf_parent isData.notRoot up
      rw [isData.entry.parent, Option.some.injEq] at isRoot
      subst isRoot
      rw [pathOf_root up', isData.entry.name]
      exact ⟨ascii "data", _, rfl, by simp, .inr rfl⟩
    · exact (linked (m.noLinks live)).elim
  · refine below_dead ?_ (.inl live)
    rintro rfl
    exact live m.named.live

end

/-- In every run whose calls create files in writable directories only and leave the modes of the mount points alone,
the nodes outside `/tmp` and `/data` are those that were mounted. -/
theorem outside_same_of_confined (clock : NodeId → Nat) (fat : Fat) (entries : List InitramfsEntry)
    (calls : List (Env × Op)) (confined : Run.Along step Confined (mounted clock fat entries) calls) :
    Run.Throughout step (SameOutside (mounted clock fat entries)) (mounted clock fat entries) calls := by
  have start : Stable (mounted clock fat entries) ∧ SameOutside (mounted clock fat entries) (mounted clock fat entries) :=
    ⟨mounted_stable clock fat entries, fun _ _ _ => ⟨Iff.rfl, fun _ => rfl⟩⟩
  have keep : ∀ σ call, (Stable σ ∧ SameOutside (mounted clock fat entries) σ) → Confined σ call →
      Stable (step σ call) ∧ SameOutside (mounted clock fat entries) (step σ call) := by
    intro σ call ⟨stable, outside⟩ confined
    obtain ⟨stable', outside'⟩ := step_confined call stable confined
    exact ⟨stable', sameOutside_trans outside outside'⟩
  exact Run.throughout_of_along keep (fun _ h => h.2) start confined

def inTmp : List (Env × Op) :=
  [(quiet, .createDirectory (ascii "/tmp/d") 0o755),
    (quiet, .openFile (ascii "/tmp/d/f") true true false 0o644 true), (quiet, .chmod (ascii "/tmp/d") 0o555)]

theorem inTmp_outside : Run.Throughout step (SameOutside bare) bare inTmp := by
  refine outside_same_of_confined _ _ _ _ ⟨trivial, ?_, trivial, trivial⟩
  intro _ _ _ entry
  have isEntry : (Run.final step bare (inTmp.take 1)).entryOf (ascii "/tmp/d/f") = some (⟨9, by decide⟩, ascii "f") := by
    decide +kernel
  cases isEntry.symm.trans entry
  decide +kernel

def inRoot : List (Env × Op) := [(quiet, .openFile (ascii "/x") true true false 0o644 true)]

theorem root_file_created : ¬ SameOutside bare (Run.final step bare inRoot) := by
  intro same
  have record : (Run.final step bare inRoot).nodes ⟨9, by decide⟩ =
      ⟨.file, some rootNode, ascii "x", 0o644, [], some ⟨0, by decide⟩, none, 0⟩ := by
    decide +kernel
  have root : (Run.final step bare inRoot).nodes rootNode = .root := by
    decide +kernel
  have path : (Run.final step bare inRoot).PathOf ⟨9, by decide⟩ [ascii "x"] := by
    have child := @PathOf.child (Run.final step bare inRoot) ⟨9, by decide⟩ rootNode [] (by decide)
      (by simp [Live, record]) (by rw [record]) (.root (by simp [Live, root, Node.root]))
    rw [record] at child
    exact child
  have outside : ¬ Writable [ascii "x"] := by
    rintro ⟨_, _, eq, nonempty, -⟩
    simp only [List.cons.injEq] at eq
    exact nonempty eq.2.symm
  obtain ⟨_, _, live, -⟩ := pathOf_parent (by decide) ((same _ _ outside).1.mp path)
  exact live (by decide +kernel)

end AerOS.Proof.Vfs
