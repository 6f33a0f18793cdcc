import AerOS.Lib.Action
import Mathlib.Data.List.DropRight
import Mathlib.Data.List.FinRange

/-!
# The in-memory file system (`kernel/src/vfs.rs`)

A node whose `parent` is `ORPHAN` has `none` there, and so has one whose `link` is `NO_LINK` or whose `storage` is
`STATIC_STORAGE`. Text is its bytes. What a call is told from outside (who calls, the clock, the heap, the FAT
volume) is its `Env`.
-/

namespace AerOS
open Lib Lib.Action Function

namespace Vfs

def maxNodes : Nat := 2048
def maxHandles : Nat := 24
def maxName : Nat := 255
def maxDepth : Nat := 16
def maxMutableFiles : Nat := 250
def mutableFileBytes : Nat := 4096
def tmpFileBytes : Nat := 1 <<< 30
def maxSymlinkHops : Nat := 8
def readBits : UInt16 := 0o444
def writeBits : UInt16 := 0o222

abbrev Name := List UInt8
abbrev NodeId := Fin maxNodes
abbrev FileId := Fin maxMutableFiles
abbrev HandleSlot := Fin maxHandles

def ascii (text : String) : Name := text.toList.map fun c => c.toNat.toUInt8

def slash : UInt8 := 0x2f

def rootNode : NodeId := ⟨0, by decide⟩

inductive NodeKind where
  | empty
  | directory
  | file
  | symlink
deriving DecidableEq

structure Node where
  kind : NodeKind
  parent : Option NodeId
  name : Name
  mode : UInt16
  data : List UInt8
  storage : Option FileId
  link : Option NodeId
  modified : Nat
deriving DecidableEq

def Node.empty : Node := ⟨.empty, some rootNode, [], 0, [], none, none, 0⟩

def Node.root : Node := ⟨.directory, some rootNode, [], 0o755, [], none, none, 0⟩

def Node.named (kind : NodeKind) (parent : NodeId) (name : Name) (mode : UInt16) (data : List UInt8) : Node :=
  ⟨kind, some parent, name, mode, data, none, none, 0⟩

structure MutableFile where
  used : Bool
  content : List UInt8
  big : Option Nat
deriving DecidableEq

def MutableFile.empty : MutableFile := ⟨false, [], none⟩

structure OpenHandle where
  node : NodeId
  generation : Nat
  cursor : Nat
  isOpen : Bool
deriving DecidableEq

def OpenHandle.empty : OpenHandle := ⟨rootNode, 1, 0, false⟩

inductive VfsError where
  | invalidPath
  | traversal
  | nameTooLong
  | depthExceeded
  | notFound
  | notDirectory
  | isDirectory
  | alreadyExists
  | permissionDenied
  | nodeLimit
  | handleLimit
  | badDescriptor
  | offsetOverflow
  | fileTooLarge
  | noSpace
  | notEmpty
  | busy
  | persistNameUnsupported
  | tooManyLinks
deriving DecidableEq

/-- How a call ends when it does not return a value: with an error, in a panic, or not at all. -/
inductive Fault where
  | refused (error : VfsError)
  | panicked
  | hangs
deriving DecidableEq

end Vfs

structure Vfs where
  nodes : Vfs.NodeId → Vfs.Node
  nodeCount : Nat
  handles : Vfs.HandleSlot → Vfs.OpenHandle
  files : Vfs.FileId → Vfs.MutableFile

namespace Vfs

def new : Vfs where
  nodes := update (fun _ => .empty) rootNode .root
  nodeCount := 1
  handles := fun _ => .empty
  files := fun _ => .empty

structure Env where
  /-- `caller_restricted`, at the call's first and its second check. -/
  restricted : Nat → Bool
  clock : NodeId → Nat
  /-- Whether the heap has a block of twice the size, or of just the size, a file needs. -/
  heapDoubled : Bool
  heapExact : Bool
  fatAccepts : Bool

abbrev M := Action Vfs Fault

def refuseIf (condition : Prop) [Decidable condition] (error : VfsError) : M Unit :=
  if condition then throw (.refused error) else pure ()

def lift {α : Type} : Except Fault α → M α
  | .ok value => pure value
  | .error fault => throw fault

def shortNameCharOk (byte : UInt8) : Bool :=
  (0x41 ≤ byte && byte ≤ 0x5a) || (0x30 ≤ byte && byte ≤ 0x39) || byte == 0x5f || byte == 0x2d

def padded (width : Nat) (name : Name) : Name := name ++ List.replicate (width - name.length) 0x20

def unpadded (name : Name) : Name := name.rdropWhile (· == 0x20)

def vfsNameToShort (name : Name) : Option Name :=
  match name.span (· != 0x2e) with
  | (_, []) => none
  | (base, _ :: ext) =>
    if base = [] ∨ 8 < base.length ∨ ext = [] ∨ 3 < ext.length then none
    else if base.all shortNameCharOk ∧ ext.all shortNameCharOk then some (padded 8 base ++ padded 3 ext)
    else none

def shortNameToVfs (short : Name) : Option Name :=
  let base := unpadded (short.take 8)
  let ext := unpadded (short.drop 8)
  if base = [] ∨ ext = [] then none
  else if base.all shortNameCharOk ∧ ext.all shortNameCharOk then some (base ++ 0x2e :: ext)
  else none

def vfsDirNameToShort (name : Name) : Option Name :=
  if name = [] ∨ 8 < name.length ∨ 0x2e ∈ name then none
  else if name.all shortNameCharOk then some (padded 11 name)
  else none

def shortDirNameToVfs (short : Name) : Option Name :=
  let base := unpadded (short.take 8)
  if short.drop 8 ≠ [0x20, 0x20, 0x20] then none
  else if base = [] ∨ ¬ base.all shortNameCharOk then none
  else some base

def parseComponent (parsed : List Name) (component : Name) : Except VfsError (List Name) :=
  if component = [] ∨ component = ascii "." then .ok parsed
  else if component = ascii ".." then if parsed = [] then .error .traversal else .ok parsed.dropLast
  else if maxName < component.length then .error .nameTooLong
  else if component.any (fun byte => byte < 0x20 || byte == 0x7f) then .error .invalidPath
  else if parsed.length = maxDepth then .error .depthExceeded
  else .ok (parsed ++ [component])

def parse (path : Name) : Except VfsError (List Name) :=
  if path.head? ≠ some slash ∨ 0 ∈ path then .error .invalidPath
  else (path.splitOn slash).foldlM parseComponent []

def isMutableMount (node : Node) : Bool :=
  node.parent = some rootNode ∧ (node.name = ascii "tmp" ∨ node.name = ascii "data")

inductive Protection where
  | none
  | changes
  | secret
deriving DecidableEq

def protectedNames : List (Name × Protection) :=
  [(ascii "ACCOUNT.DAT", .secret), (ascii "LOCKOUT.DAT", .changes), (ascii "QUAR", .secret),
    (ascii "AVSIG.DAT", .changes), (ascii "AUDIT.LOG", .changes), (ascii "MEASURE.REF", .changes)]

def Protection.blocks : Protection → Bool → Bool
  | .none, _ => false
  | .changes, change => change
  | .secret, _ => true

def guardProtection (env : Env) (check : Nat) (protection : Protection) (change : Bool) : M Unit :=
  refuseIf (protection.blocks change ∧ env.restricted check) .permissionDenied

def ids (σ : Vfs) : List NodeId :=
  (List.range σ.nodeCount).filterMap fun i => if h : i < maxNodes then some ⟨i, h⟩ else none

def findChild (σ : Vfs) (parent : NodeId) (name : Name) : Option NodeId :=
  σ.ids.find? fun i => (σ.nodes i).kind ≠ .empty ∧ (σ.nodes i).parent = some parent ∧ (σ.nodes i).name = name

def descend (σ : Vfs) (parent : NodeId) (component : Name) : Except VfsError NodeId :=
  match σ.findChild parent component with
  | none => .error .notFound
  | some child => if (σ.nodes child).kind ≠ .directory then .error .notDirectory else .ok child

def resolveParent (σ : Vfs) (parsed : List Name) : Except VfsError (NodeId × Name) := do
  let parent ← parsed.dropLast.foldlM σ.descend rootNode
  return (parent, parsed.getLast?.getD [])

def enter (σ : Vfs) (current : NodeId) (component : Name) : Except VfsError NodeId :=
  if (σ.nodes current).kind ≠ .directory then .error .notDirectory
  else
    match σ.findChild current component with
    | none => .error .notFound
    | some child => .ok child

def resolve (σ : Vfs) (path : Name) : Except VfsError NodeId := do
  let parsed ← parse path
  parsed.foldlM σ.enter rootNode

def content (σ : Vfs) (index : NodeId) : NodeId := (σ.nodes index).link.getD index

def nodePathIn (σ : Vfs) : Nat → Nat → NodeId → Name → Name
  | 0, _, _, _ => []
  | turns + 1, room, current, path =>
    if current = rootNode then path
    else
      match (σ.nodes current).parent with
      | none => []
      | some up =>
        let name := (σ.nodes current).name
        if room < name.length + 1 then [] else σ.nodePathIn turns (room - (name.length + 1)) up (slash :: name ++ path)

/-- Every turn takes at least one of the 128 bytes. -/
def nodePath (σ : Vfs) (node : NodeId) : Name := σ.nodePathIn 129 128 node []

def linkTarget (σ : Vfs) (stored : Node) : Except Fault Name :=
  match stored.storage with
  | none => .error .panicked
  | some file =>
    let target := (σ.files file).content
    if maxName < target.length then .error .panicked
    else if target.head? = some slash then .ok target
    else
      match stored.parent with
      | none => .error .panicked
      | some parent =>
        let path := σ.nodePath parent
        if path = [] ∨ 128 < path.length + 1 + target.length then .error (.refused .nameTooLong)
        else .ok (path ++ slash :: target)

def follow (σ : Vfs) : Nat → NodeId → Except Fault NodeId
  | 0, _ => .error (.refused .tooManyLinks)
  | hops + 1, current =>
    if (σ.nodes current).kind ≠ .symlink then .ok (σ.content current)
    else do
      let target ← σ.linkTarget (σ.nodes current)
      let next ← (σ.resolve target).mapError .refused
      σ.follow hops next

def resolveFollowing (σ : Vfs) (path : Name) : Except Fault NodeId := do
  let current ← (σ.resolve path).mapError .refused
  σ.follow maxSymlinkHops current

/-- A walk that has not ended after `maxNodes` turns is in a cycle. -/
def mutableSubtreeIn (σ : Vfs) : Nat → NodeId → Except Fault Bool
  | 0, _ => .error .hangs
  | turns + 1, cursor =>
    let stored := σ.nodes cursor
    match stored.parent with
    | none => .ok true
    | some up =>
      if up = rootNode then .ok (stored.kind = .directory ∧ isMutableMount stored)
      else if cursor = rootNode ∨ stored.kind = .empty then .ok false
      else σ.mutableSubtreeIn turns up

def mutableSubtree (σ : Vfs) (node : NodeId) : Except Fault Bool := σ.mutableSubtreeIn maxNodes node

def walkAvoids (σ : Vfs) (source : NodeId) : Nat → NodeId → Except Fault Unit
  | 0, _ => .error .hangs
  | turns + 1, cursor =>
    if cursor = source then .error (.refused .traversal)
    else if cursor = rootNode then .ok ()
    else
      match (σ.nodes cursor).parent with
      | none => .error .panicked
      | some up => σ.walkAvoids source turns up

def protectionIn (σ : Vfs) (data : NodeId) : Nat → NodeId → Name → Protection
  | 0, _, _ => .none
  | turns + 1, cursor, entry =>
    if cursor = data then ((protectedNames.find? fun p => p.1 = entry).map (·.2)).getD .none
    else
      match (σ.nodes cursor).parent with
      | none => .none
      | some up =>
        if cursor = rootNode ∨ (σ.nodes cursor).kind = .empty then .none
        else σ.protectionIn data turns up (σ.nodes cursor).name

def dataNode (σ : Vfs) : Option NodeId := σ.findChild rootNode (ascii "data")

def protectionOf (σ : Vfs) (parent : NodeId) (name : Name) : Protection :=
  match σ.dataNode with
  | none => .none
  | some data => σ.protectionIn data (maxDepth + 1) parent name

def nodeProtection (σ : Vfs) (node : NodeId) : Protection :=
  match (σ.nodes node).parent with
  | none => .none
  | some parent => if node = rootNode then .none else σ.protectionOf parent (σ.nodes node).name

def persistedAs (σ : Vfs) (toShort : Name → Option Name) (node : Node) : Option Name :=
  match σ.dataNode with
  | none => none
  | some data => if node.parent = some data then toShort node.name else none

def persistedShortName (σ : Vfs) (node : Node) : Option Name := σ.persistedAs vfsNameToShort node

def inUse (σ : Vfs) (node : NodeId) : Bool :=
  (List.finRange maxHandles).any fun slot => (σ.handles slot).isOpen ∧ (σ.handles slot).node = node

def hasChild (σ : Vfs) (node : NodeId) : Bool :=
  σ.ids.any fun i => (σ.nodes i).kind ≠ .empty ∧ (σ.nodes i).parent = some node

def freeFile (σ : Vfs) : Option FileId := (List.finRange maxMutableFiles).find? fun slot => !(σ.files slot).used

def setNode (σ : Vfs) (index : NodeId) (node : Node) : Vfs := { σ with nodes := update σ.nodes index node }

def setFile (σ : Vfs) (slot : FileId) (file : MutableFile) : Vfs := { σ with files := update σ.files slot file }

def setHandle (σ : Vfs) (slot : HandleSlot) (handle : OpenHandle) : Vfs :=
  { σ with handles := update σ.handles slot handle }

def touch (σ : Vfs) (index : NodeId) (now : Nat) : Vfs := σ.setNode index { σ.nodes index with modified := now }

def releaseNode (σ : Vfs) (index : NodeId) : Vfs :=
  let cleared :=
    match (σ.nodes index).storage with
    | none => σ
    | some file => σ.setFile file .empty
  cleared.setNode index .empty

def discard (σ : Vfs) (index : NodeId) : Vfs :=
  if σ.inUse index then σ.setNode index { σ.nodes index with parent := none, name := [] } else σ.releaseNode index

def addNode (clock : NodeId → Nat) (kind : NodeKind) (parent : NodeId) (name : Name) (mode : UInt16)
    (data : List UInt8) : M NodeId := do
  let σ ← get
  match σ.ids.find? fun i => i ≠ rootNode ∧ (σ.nodes i).kind = .empty with
  | some index =>
    modify (·.setNode index { Node.named kind parent name mode data with modified := clock index })
    return index
  | none =>
    if h : σ.nodeCount < maxNodes then do
      let index : NodeId := ⟨σ.nodeCount, h⟩
      modify fun σ => { σ with nodeCount := σ.nodeCount + 1 }
      modify (·.setNode index { Node.named kind parent name mode data with modified := clock index })
      return index
    else throw (.refused .nodeLimit)

def setStorage (index : NodeId) (file : FileId) : M Unit :=
  modify fun σ => σ.setNode index { σ.nodes index with storage := some file }

def reserve (env : Env) (file : MutableFile) (bytes limit : Nat) : Except Fault MutableFile :=
  let current := file.big.getD mutableFileBytes
  if bytes ≤ current then .ok file
  else if limit < bytes then .error (.refused .fileTooLarge)
  else
    let doubled := max (min (doubling 32 (max current mutableFileBytes * 2) bytes) limit) bytes
    let exact := min ((bytes + 4095) / 4096 * 4096) doubled
    if env.heapDoubled then .ok { file with big := some doubled }
    else if env.heapExact then .ok { file with big := some exact }
    else .error (.refused .noSpace)
where
  doubling : Nat → Nat → Nat → Nat
    | 0, capacity, _ => capacity
    | turns + 1, capacity, bytes => if capacity < bytes then doubling turns (capacity * 2) bytes else capacity

def splice (bytes : List UInt8) (start : Nat) (source : List UInt8) : List UInt8 :=
  bytes.take start ++ List.replicate (start - bytes.length) 0 ++ source ++ bytes.drop (start + source.length)

def resize (bytes : List UInt8) (length : Nat) : List UInt8 :=
  bytes.take length ++ List.replicate (length - bytes.length) 0

def sizeLimit (persisted : Bool) : Nat := if persisted then mutableFileBytes else tmpFileBytes

def handleSlot (σ : Vfs) (descriptor : UInt32) : Except Fault HandleSlot :=
  if h : descriptor.toNat % 65536 < maxHandles then
    let slot : HandleSlot := ⟨descriptor.toNat % 65536, h⟩
    if (σ.handles slot).isOpen = true ∧ (σ.handles slot).generation = descriptor.toNat / 65536 then .ok slot
    else .error (.refused .badDescriptor)
  else .error (.refused .badDescriptor)

def openNode (node : NodeId) : M UInt32 := do
  let σ ← get
  match (List.finRange maxHandles).find? fun slot => !(σ.handles slot).isOpen with
  | none => throw (.refused .handleLimit)
  | some slot => do
    let generation := max (σ.handles slot).generation 1
    modify (·.setHandle slot ⟨node, generation, 0, true⟩)
    return UInt32.ofNat (generation * 65536 + slot)

def openKind (env : Env) (path : Name) (directory : Bool) : M UInt32 := do
  let σ ← get
  let node ← lift (σ.resolveFollowing path)
  let stored := σ.nodes node
  refuseIf (directory ∧ stored.kind ≠ .directory) .notDirectory
  refuseIf (¬ directory ∧ stored.kind ≠ .file) .isDirectory
  refuseIf (stored.mode &&& readBits = 0) .permissionDenied
  guardProtection env 0 (σ.nodeProtection node) false
  openNode node

def close (descriptor : UInt32) : M Unit := do
  let σ ← get
  let slot ← lift (σ.handleSlot descriptor)
  let handle := σ.handles slot
  modify (·.setHandle slot ⟨handle.node, max ((handle.generation + 1) % 0x4000) 1, 0, false⟩)
  modify fun σ => if (σ.nodes handle.node).parent = none ∧ ¬ σ.inUse handle.node then σ.releaseNode handle.node else σ

def createFile (env : Env) (path : Name) (mode : UInt16) : M NodeId := do
  let σ ← get
  let parsed ← lift ((parse path).mapError .refused)
  refuseIf (parsed = []) .isDirectory
  let (parent, name) ← lift ((σ.resolveParent parsed).mapError .refused)
  refuseIf ((σ.nodes parent).mode &&& writeBits = 0) .permissionDenied
  refuseIf (σ.findChild parent name).isSome .alreadyExists
  guardProtection env 0 (σ.protectionOf parent name) true
  let persist := σ.dataNode = some parent
  refuseIf (persist ∧ vfsNameToShort name = none) .persistNameUnsupported
  match σ.freeFile with
  | none => throw (.refused .nodeLimit)
  | some file => do
    modify (·.setFile file { MutableFile.empty with used := true })
    if persist ∧ ¬ env.fatAccepts then do
      modify (·.setFile file .empty)
      throw (.refused .permissionDenied)
    else
      attempt (addNode env.clock .file parent name (mode &&& 0o666) [])
        (fun node => do
          setStorage node file
          pure node)
        fun fault => do
          modify (·.setFile file .empty)
          throw fault

def findOrCreate (env : Env) (path : Name) (create exclusive : Bool) (mode : UInt16) : M NodeId := do
  let σ ← get
  match σ.resolveFollowing path with
  | .ok node => do
    refuseIf (create ∧ exclusive) .alreadyExists
    return node
  | .error (.refused .notFound) => if create then createFile env path mode else throw (.refused .notFound)
  | .error fault => throw fault

def openFile (env : Env) (path : Name) (create exclusive truncate : Bool) (mode : UInt16) (write : Bool) :
    M UInt32 := do
  let node ← findOrCreate env path create exclusive mode
  let σ ← get
  let stored := σ.nodes node
  refuseIf (stored.kind ≠ .file) .isDirectory
  guardProtection env 1 (σ.nodeProtection node) (write || truncate)
  refuseIf (write ∧ stored.storage = none) .permissionDenied
  refuseIf (¬ write ∧ stored.mode &&& readBits = 0) .permissionDenied
  match truncate, stored.storage with
  | true, none => throw (.refused .permissionDenied)
  | true, some file => do
    modify fun σ => σ.setFile file { σ.files file with content := [], big := none }
    openNode node
  | false, _ => openNode node

def createDirectory (env : Env) (path : Name) (mode : UInt16) : M Unit := do
  let σ ← get
  let parsed ← lift ((parse path).mapError .refused)
  refuseIf (parsed = []) .alreadyExists
  let (parent, name) ← lift ((σ.resolveParent parsed).mapError .refused)
  refuseIf (σ.findChild parent name).isSome .alreadyExists
  guardProtection env 0 (σ.protectionOf parent name) true
  let inside ← lift (σ.mutableSubtree parent)
  refuseIf (¬ inside ∨ (σ.nodes parent).mode &&& writeBits = 0) .permissionDenied
  let persist := σ.dataNode = some parent
  refuseIf (persist ∧ vfsDirNameToShort name = none) .persistNameUnsupported
  refuseIf (persist ∧ ¬ env.fatAccepts) .permissionDenied
  let _ ← addNode env.clock .directory parent name (mode &&& 0o777) []

def createSymlink (env : Env) (path target : Name) : M Unit := do
  refuseIf (target = [] ∨ maxName < target.length) .nameTooLong
  let σ ← get
  let parsed ← lift ((parse path).mapError .refused)
  refuseIf (parsed = []) .isDirectory
  let (parent, name) ← lift ((σ.resolveParent parsed).mapError .refused)
  let inside ← lift (σ.mutableSubtree parent)
  refuseIf (¬ inside ∨ (σ.nodes parent).mode &&& writeBits = 0) .permissionDenied
  refuseIf (σ.dataNode = some parent) .permissionDenied
  refuseIf (σ.findChild parent name).isSome .alreadyExists
  guardProtection env 0 (σ.protectionOf parent name) true
  match σ.freeFile with
  | none => throw (.refused .nodeLimit)
  | some file => do
    modify (·.setFile file ⟨true, target, none⟩)
    attempt (addNode env.clock .symlink parent name 0o777 []) (setStorage · file) fun fault => do
      modify (·.setFile file .empty)
      throw fault

def link (env : Env) (source destination : Name) : M Unit := do
  let σ ← get
  let found ← lift ((σ.resolve source).mapError .refused)
  let target := σ.content found
  let stored := σ.nodes target
  refuseIf (stored.kind ≠ .file) .permissionDenied
  let inside ← lift (σ.mutableSubtree target)
  refuseIf (¬ inside ∨ stored.storage = none ∨ (σ.persistedShortName stored).isSome) .permissionDenied
  let parsed ← lift ((parse destination).mapError .refused)
  refuseIf (parsed = []) .alreadyExists
  let (parent, name) ← lift ((σ.resolveParent parsed).mapError .refused)
  let inside ← lift (σ.mutableSubtree parent)
  refuseIf (¬ inside ∨ (σ.nodes parent).mode &&& writeBits = 0 ∨ σ.dataNode = some parent) .permissionDenied
  refuseIf (σ.findChild parent name).isSome .alreadyExists
  guardProtection env 0 (σ.protectionOf parent name) true
  let node ← addNode env.clock .file parent name stored.mode []
  modify fun σ => σ.setNode node { σ.nodes node with link := some target }

def heir (σ : Vfs) (node : NodeId) : Option NodeId :=
  σ.ids.find? fun i => (σ.nodes i).kind ≠ .empty ∧ (σ.nodes i).link = some node

def inherit (σ : Vfs) (node heir : NodeId) : Vfs :=
  let name := σ.nodes heir
  (σ.setNode node { σ.nodes node with parent := name.parent, name := name.name }).setNode heir .empty

def remove (env : Env) (path : Name) (directory : Bool) : M Unit := do
  let σ ← get
  let parsed ← lift ((parse path).mapError .refused)
  refuseIf (parsed = []) .busy
  let node ← lift ((σ.resolve path).mapError .refused)
  let stored := σ.nodes node
  let inside ← lift (σ.mutableSubtree node)
  refuseIf (¬ inside ∨ isMutableMount stored) .permissionDenied
  guardProtection env 0 (σ.nodeProtection node) true
  refuseIf (directory ∧ stored.kind ≠ .directory) .notDirectory
  refuseIf (¬ directory ∧ stored.kind ≠ .file ∧ stored.kind ≠ .symlink) .isDirectory
  refuseIf (stored.kind = .directory ∧ σ.hasChild node) .notEmpty
  if stored.link ≠ none then modify (·.setNode node .empty)
  else
    match σ.heir node with
    | some heir => modify (·.inherit node heir)
    | none => do
      refuseIf (σ.inUse node ∧ stored.kind = .directory) .busy
      modify (·.discard node)

def checkReplaced (σ : Vfs) (source : Node) (destination : NodeId) : M Unit := do
  let stored := σ.nodes destination
  refuseIf (source.kind = .directory ∧ stored.kind ≠ .directory) .notDirectory
  refuseIf (source.kind ≠ .directory ∧ stored.kind = .directory) .isDirectory
  refuseIf (stored.kind = .directory ∧ σ.hasChild destination) .notEmpty
  refuseIf (stored.kind = .directory ∧ σ.inUse destination) .busy

def renameWith (env : Env) (source destination : Name) (noreplace : Bool) : M Unit := do
  let σ ← get
  let sourceParsed ← lift ((parse source).mapError .refused)
  let destinationParsed ← lift ((parse destination).mapError .refused)
  refuseIf (sourceParsed = [] ∨ destinationParsed = []) .busy
  let sourceNode ← lift ((σ.resolve source).mapError .refused)
  let stored := σ.nodes sourceNode
  let inside ← lift (σ.mutableSubtree sourceNode)
  refuseIf (¬ inside ∨ isMutableMount stored) .permissionDenied
  match stored.parent with
  | none => throw .panicked
  | some sourceParent => do
    refuseIf ((σ.nodes sourceParent).mode &&& writeBits = 0) .permissionDenied
    let (parent, name) ← lift ((σ.resolveParent destinationParsed).mapError .refused)
    guardProtection env 0 (σ.nodeProtection sourceNode) true
    guardProtection env 1 (σ.protectionOf parent name) true
    let inside ← lift (σ.mutableSubtree parent)
    refuseIf (¬ inside ∨ (σ.nodes parent).mode &&& writeBits = 0) .permissionDenied
    refuseIf (σ.dataNode = some sourceParent ∨ σ.dataNode = some parent) .permissionDenied
    let replaced := σ.findChild parent name
    if replaced = some sourceNode then return
    else
      refuseIf (replaced.isSome ∧ noreplace) .alreadyExists
      forEach replaced.toList (σ.checkReplaced stored)
      lift (if stored.kind = .directory then σ.walkAvoids sourceNode maxNodes parent else .ok ())
      forEach replaced.toList fun node => modify (·.discard node)
      modify fun σ => σ.setNode sourceNode { σ.nodes sourceNode with parent := some parent, name := name }

def setMode (index : NodeId) (mode : UInt16) : M Unit :=
  modify fun σ => σ.setNode index { σ.nodes index with mode := mode &&& 0o777 }

def chmod (env : Env) (path : Name) (mode : UInt16) : M Unit := do
  let σ ← get
  let found ← lift ((σ.resolve path).mapError .refused)
  let node := σ.content found
  let inside ← lift (σ.mutableSubtree node)
  refuseIf (¬ inside ∨ isMutableMount (σ.nodes node)) .permissionDenied
  guardProtection env 0 (σ.nodeProtection node) true
  setMode node mode

/-- Unlike `chmod`, without a check for the mount points themselves. -/
def fchmod (env : Env) (descriptor : UInt32) (mode : UInt16) : M Unit := do
  let σ ← get
  let slot ← lift (σ.handleSlot descriptor)
  let node := (σ.handles slot).node
  let inside ← lift (σ.mutableSubtree node)
  refuseIf (¬ inside) .permissionDenied
  guardProtection env 0 (σ.nodeProtection node) true
  setMode node mode

def truncate (env : Env) (descriptor : UInt32) (length : Nat) : M Unit := do
  refuseIf (tmpFileBytes < length) .fileTooLarge
  let σ ← get
  let slot ← lift (σ.handleSlot descriptor)
  let node := (σ.handles slot).node
  let stored := σ.nodes node
  refuseIf (stored.kind ≠ .file) .isDirectory
  match stored.storage with
  | none => throw (.refused .permissionDenied)
  | some file => do
    modify (·.touch node (env.clock node))
    guardProtection env 0 (σ.nodeProtection node) true
    refuseIf ((σ.files file).used = false) .badDescriptor
    let reserved ← lift (reserve env (σ.files file) length (sizeLimit (σ.persistedShortName stored).isSome))
    modify (·.setFile file { reserved with content := resize reserved.content length })

def writeBytes (env : Env) (σ : Vfs) (stored : Node) (file : FileId) (start : Nat) (source : List UInt8) : M Unit := do
  refuseIf (2 ^ 64 ≤ start + source.length) .offsetOverflow
  let reserved ← lift
    (reserve env (σ.files file) (start + source.length) (sizeLimit (σ.persistedShortName stored).isSome))
  modify (·.setFile file { reserved with content := splice reserved.content start source })

def write (env : Env) (descriptor : UInt32) (source : List UInt8) (append : Bool) : M Nat := do
  let σ ← get
  let slot ← lift (σ.handleSlot descriptor)
  let handle := σ.handles slot
  let stored := σ.nodes handle.node
  match stored.storage with
  | none => throw (.refused .permissionDenied)
  | some file => do
    modify (·.touch handle.node (env.clock handle.node))
    refuseIf ((σ.files file).used = false) .badDescriptor
    let start := if append then (σ.files file).content.length else handle.cursor
    writeBytes env σ stored file start source
    modify (·.setHandle slot { handle with cursor := start + source.length })
    return source.length

def writeAt (env : Env) (descriptor : UInt32) (offset : Nat) (source : List UInt8) : M Nat := do
  let σ ← get
  let slot ← lift (σ.handleSlot descriptor)
  let stored := σ.nodes (σ.handles slot).node
  match stored.storage with
  | none => throw (.refused .permissionDenied)
  | some file => do
    refuseIf ((σ.files file).used = false) .badDescriptor
    writeBytes env σ stored file offset source
    return source.length

def bytesOf (σ : Vfs) (node : NodeId) : List UInt8 :=
  match (σ.nodes node).storage with
  | none => (σ.nodes node).data
  | some file => (σ.files file).content

def read (descriptor : UInt32) (length : Nat) : M (List UInt8) := do
  let σ ← get
  let slot ← lift (σ.handleSlot descriptor)
  let handle := σ.handles slot
  let bytes := ((σ.bytesOf handle.node).drop handle.cursor).take length
  modify (·.setHandle slot { handle with cursor := handle.cursor + bytes.length })
  return bytes

def seek (descriptor : UInt32) (offset : Int) (whence : Nat) : M Nat := do
  let σ ← get
  let slot ← lift (σ.handleSlot descriptor)
  let handle := σ.handles slot
  refuseIf (2 < whence) .invalidPath
  let base : Nat :=
    if whence = 0 then 0 else if whence = 1 then handle.cursor else (σ.bytesOf (σ.content handle.node)).length
  let target := (base : Int) + offset
  refuseIf (target < 0 ∨ 2 ^ 64 ≤ target) .offsetOverflow
  modify (·.setHandle slot { handle with cursor := target.toNat })
  return target.toNat

structure InitramfsEntry where
  path : Name
  data : List UInt8
  mode : UInt16

/-- What the FAT volume holds: the root's files with their sizes, their bytes, and the root's directories. -/
structure Fat where
  files : List (Name × Nat)
  contents : Name → Option (List UInt8)
  directories : List Name

section
variable (clock : NodeId → Nat)

def mountDirectory (path : Name) (mode : UInt16) : M Unit := do
  let σ ← get
  let parsed ← lift ((parse path).mapError .refused)
  refuseIf (parsed = []) .alreadyExists
  let (parent, name) ← lift ((σ.resolveParent parsed).mapError .refused)
  refuseIf (σ.findChild parent name).isSome .alreadyExists
  let _ ← addNode clock .directory parent name (mode &&& 0o777) []

def mountParents : NodeId → List Name → M NodeId
  | parent, [] => pure parent
  | parent, component :: rest => do
    let σ ← get
    match σ.findChild parent component with
    | some index => do
      refuseIf ((σ.nodes index).kind ≠ .directory) .notDirectory
      mountParents index rest
    | none => do
      let index ← addNode clock .directory parent component 0o755 []
      mountParents index rest

def mountFile (entry : InitramfsEntry) : M Unit := do
  let parsed ← lift ((parse entry.path).mapError .refused)
  refuseIf (parsed = []) .isDirectory
  let parent ← mountParents clock rootNode parsed.dropLast
  let σ ← get
  let name := parsed.getLast?.getD []
  refuseIf (σ.findChild parent name).isSome .alreadyExists
  let _ ← addNode clock .file parent name (entry.mode &&& 0o777) entry.data

def loadFile (fat : Fat) (data : NodeId) (file : FileId) (name short : Name) (bytes : Nat) : M Unit := do
  modify (·.setFile file { MutableFile.empty with used := true })
  attempt (addNode clock .file data name 0o644 [])
    (fun node => do
      setStorage node file
      modify (·.setFile file ⟨true, ((fat.contents short).getD []).take (min bytes mutableFileBytes), none⟩))
    fun _ => modify (·.setFile file .empty)

def loadFiles (fat : Fat) (data : NodeId) : List (Name × Nat) → M Bool
  | [] => pure true
  | (short, bytes) :: rest => do
    let σ ← get
    match shortNameToVfs short with
    | none => loadFiles fat data rest
    | some name =>
      if (σ.findChild data name).isSome then loadFiles fat data rest
      else
        match σ.freeFile with
        | none => pure false
        | some file => do
          loadFile clock fat data file name short bytes
          loadFiles fat data rest

def loadDirectories (data : NodeId) : List Name → M Unit
  | [] => pure ()
  | short :: rest => do
    let σ ← get
    match shortDirNameToVfs short with
    | none => loadDirectories data rest
    | some name =>
      if (σ.findChild data name).isSome then loadDirectories data rest
      else do
        attempt (addNode clock .directory data name 0o755 []) (fun _ => pure ()) fun _ => pure ()
        loadDirectories data rest

def loadPersistedFiles (fat : Fat) : M Unit := do
  let σ ← get
  match σ.dataNode with
  | none => pure ()
  | some data => do
    let goOn ← loadFiles clock fat data (fat.files.take maxMutableFiles)
    if goOn then loadDirectories clock data (fat.directories.take 4) else pure ()

def mountPoints : List (Name × UInt16) :=
  [(ascii "/tmp", 0o777), (ascii "/data", 0o777), (ascii "/home", 0o755), (ascii "/media", 0o755),
    (ascii "/var", 0o755), (ascii "/opt", 0o755), (ascii "/srv", 0o755), (ascii "/root", 0o755)]

def mount (fat : Fat) (entries : List InitramfsEntry) : M Unit := do
  forEach entries (mountFile clock)
  forEach mountPoints fun point => mountDirectory clock point.1 point.2
  loadPersistedFiles clock fat

end

end Vfs

end AerOS
