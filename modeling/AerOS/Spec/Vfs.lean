import AerOS.Lib.Run
import AerOS.Model.Vfs

/-!
# What the in-memory file system keeps
-/

namespace AerOS.Vfs

inductive Op where
  | openFile (path : Name) (create exclusive truncate : Bool) (mode : UInt16) (write : Bool)
  | openKind (path : Name) (directory : Bool)
  | close (descriptor : UInt32)
  | createDirectory (path : Name) (mode : UInt16)
  | createSymlink (path target : Name)
  | link (source destination : Name)
  | remove (path : Name) (directory : Bool)
  | rename (source destination : Name) (noreplace : Bool)
  | chmod (path : Name) (mode : UInt16)
  | fchmod (descriptor : UInt32) (mode : UInt16)
  | truncate (descriptor : UInt32) (length : Nat)
  | write (descriptor : UInt32) (source : List UInt8) (append : Bool)
  | writeAt (descriptor : UInt32) (offset : Nat) (source : List UInt8)
  | read (descriptor : UInt32) (length : Nat)
  | seek (descriptor : UInt32) (offset : Int) (whence : Nat)

def perform (env : Env) : Op → M Unit
  | .openFile path create exclusive truncate mode write => do
    let _ ← openFile env path create exclusive truncate mode write
  | .openKind path directory => do let _ ← openKind env path directory
  | .close descriptor => close descriptor
  | .createDirectory path mode => createDirectory env path mode
  | .createSymlink path target => createSymlink env path target
  | .link source destination => link env source destination
  | .remove path directory => remove env path directory
  | .rename source destination noreplace => renameWith env source destination noreplace
  | .chmod path mode => chmod env path mode
  | .fchmod descriptor mode => fchmod env descriptor mode
  | .truncate descriptor length => truncate env descriptor length
  | .write descriptor source append => do let _ ← write env descriptor source append
  | .writeAt descriptor offset source => do let _ ← writeAt env descriptor offset source
  | .read descriptor length => do let _ ← read descriptor length
  | .seek descriptor offset whence => do let _ ← seek descriptor offset whence

def step (σ : Vfs) (call : Env × Op) : Vfs := (perform call.1 call.2 σ).2

def mounted (clock : NodeId → Nat) (fat : Fat) (entries : List InitramfsEntry) : Vfs := (mount clock fat entries new).2

def Live (σ : Vfs) (node : NodeId) : Prop := (σ.nodes node).kind ≠ .empty

def HasName (σ : Vfs) (file : FileId) : Prop :=
  ∃ node, σ.Live node ∧ (σ.nodes node).parent ≠ none ∧ (σ.nodes (σ.content node)).storage = some file

def HasHandle (σ : Vfs) (file : FileId) : Prop :=
  ∃ slot, (σ.handles slot).isOpen = true ∧ (σ.nodes (σ.handles slot).node).storage = some file

structure LinksSound (σ : Vfs) : Prop where
  link : ∀ node target, σ.Live node → (σ.nodes node).link = some target →
    (σ.nodes target).kind = .file ∧ (σ.nodes target).link = none
  owner : ∀ file, (σ.files file).used = true → ∃! node, σ.Live node ∧ (σ.nodes node).storage = some file
  used : ∀ file, (σ.files file).used = true ↔ σ.HasName file ∨ σ.HasHandle file

def entryOf (σ : Vfs) (path : Name) : Option (NodeId × Name) :=
  match parse path with
  | .error _ => none
  | .ok parsed =>
    if parsed = [] then none
    else
      match σ.resolveParent parsed with
      | .error _ => none
      | .ok entry => some entry

/-- The entries a call may take away or give to another file. -/
def Op.entries (σ : Vfs) : Op → List (NodeId × Name)
  | .remove path _ => (σ.entryOf path).toList
  | .rename source destination _ => (σ.entryOf source).toList ++ (σ.entryOf destination).toList
  | _ => []

def Op.OnNames : Op → Prop
  | .openFile _ _ _ cut _ _ => cut = false
  | .truncate _ _ => False
  | .write _ _ _ => False
  | .writeAt _ _ _ => False
  | _ => True

/-- The file is where it was, with the bytes it had unless the call writes to files. -/
structure Stays (op : Op) (σ σ' : Vfs) (node : NodeId) : Prop where
  place : (σ'.nodes node).storage = (σ.nodes node).storage
  bytes : op.OnNames → σ'.bytesOf node = σ.bytesOf node

structure NamesKept (σ : Vfs) (call : Env × Op) : Prop where
  others : ∀ parent name node, σ.findChild parent name = some node → (parent, name) ∉ call.2.entries σ →
    ∃ node', (step σ call).findChild parent name = some node' ∧ (step σ call).content node' = σ.content node ∧
      Stays call.2 σ (step σ call) (σ.content node)
  handles : ∀ slot, (σ.handles slot).isOpen = true → ((step σ call).handles slot).isOpen = true →
    ((step σ call).handles slot).node = (σ.handles slot).node ∧ Stays call.2 σ (step σ call) (σ.handles slot).node
  renamed : ∀ source destination noreplace node parent name, call.2 = .rename source destination noreplace →
    (perform call.1 call.2 σ).1 = .ok () → σ.resolve source = .ok node → σ.entryOf destination = some (parent, name) →
    ∃ node', (step σ call).findChild parent name = some node' ∧ (step σ call).content node' = σ.content node ∧
      Stays call.2 σ (step σ call) (σ.content node)

structure NamesSound (σ : Vfs) : Prop where
  handle : ∀ slot, (σ.handles slot).isOpen = true → σ.Live (σ.handles slot).node
  orphan : ∀ node, σ.Live node → (σ.nodes node).parent = none →
    ∃ slot, (σ.handles slot).isOpen = true ∧ (σ.handles slot).node = node
  unique : ∀ node other, σ.Live node → σ.Live other → (σ.nodes node).parent ≠ none →
    (σ.nodes node).parent = (σ.nodes other).parent → (σ.nodes node).name = (σ.nodes other).name → node = other

/-- A rename replaces no node that holds the file of other names. -/
def Spares (σ : Vfs) (call : Env × Op) : Prop :=
  match call.2 with
  | .rename source destination _ => ∀ parent name replaced, σ.entryOf destination = some (parent, name) →
      σ.findChild parent name = some replaced → σ.resolve source ≠ .ok replaced → σ.heir replaced = none
  | _ => True

inductive PathOf (σ : Vfs) : NodeId → List Name → Prop where
  | root : σ.Live rootNode → PathOf σ rootNode []
  | child {node parent : NodeId} {path : List Name} : node ≠ rootNode → σ.Live node →
      (σ.nodes node).parent = some parent → PathOf σ parent path → PathOf σ node (path ++ [(σ.nodes node).name])

def Writable (path : List Name) : Prop :=
  ∃ mount rest, path = mount :: rest ∧ rest ≠ [] ∧ (mount = ascii "tmp" ∨ mount = ascii "data")

/-- Outside the writable places both states have the same nodes, with the same records. -/
def SameOutside (σ₀ σ : Vfs) : Prop :=
  ∀ node path, ¬ Writable path →
    (σ.PathOf node path ↔ σ₀.PathOf node path) ∧ (σ.PathOf node path → σ.nodes node = σ₀.nodes node)

/-- A file that `open_file` creates has a writable directory, and `fchmod` is not about a mount point itself. -/
def Confined (σ : Vfs) (call : Env × Op) : Prop :=
  match call.2 with
  | .openFile path true _ _ _ _ => ∀ parent name, σ.resolveFollowing path = .error (.refused .notFound) →
      σ.entryOf path = some (parent, name) → σ.mutableSubtree parent = .ok true
  | .fchmod descriptor _ => ∀ slot, σ.handleSlot descriptor = .ok slot →
      isMutableMount (σ.nodes (σ.handles slot).node) = false
  | _ => True

end AerOS.Vfs
