import AerOS.Lib.Run
import AerOS.Model.Fsck

/-!
# What a FAT volume holds, read off its disk alone
-/

namespace AerOS.Fat

def Benign : Stop → Prop
  | .failed _ => True
  | _ => False

def Geometry.Holds (g : Geometry) (cluster : Nat) : Prop := 2 ≤ cluster ∧ cluster < g.clusters + 2

instance (g : Geometry) (cluster : Nat) : Decidable (g.Holds cluster) := inferInstanceAs (Decidable (_ ∧ _))

section
variable (g : Geometry) (disk : Nat → Sector)

def entryAt (cluster : Nat) : Nat :=
  g.fatValue (disk (g.start + (g.reserved + cluster * g.perEntry / 512))) (cluster * g.perEntry % 512)

def linkOf (cluster : Nat) : Option Nat :=
  let value := entryAt g disk cluster
  if g.isEnd value ∨ value < 2 ∨ g.clusters + 2 ≤ value then none else some value

def hop : Nat → Nat → Option Nat
  | 0, cluster => some cluster
  | hops + 1, cluster => (linkOf g disk cluster).bind (hop hops)

def sectorOf (dir k : Nat) : Option Nat :=
  if dir = 0 then if k < g.rootSectors then some (g.rootStart + k) else none
  else if maxDirectorySectors ≤ k then none
  else (hop g disk (k / g.sectorsPerCluster) dir).map fun cluster =>
    g.dataStart + (cluster - 2) * g.sectorsPerCluster + k % g.sectorsPerCluster

def slotAt (dir index : Nat) : Option Entry :=
  (sectorOf g disk dir (index / 16)).map fun sector => entryOf (disk (g.start + sector)) (index % 16)

def Shown (entry : Entry) : Prop :=
  entry.byte 0 ≠ 0 ∧ entry.byte 0 ≠ 0xe5 ∧ isLong entry = false ∧ entry.byte 11 &&& attrVolume = 0 ∧
    isDots entry = false

/-- A listing that starts at the right place shows the entry: a cursor may point behind the mark that
ends a directory. -/
structure Lists (dir index : Nat) (entry : Entry) : Prop where
  slot : slotAt g disk dir index = some entry
  shown : Shown entry

def headOf (entry : Entry) : Nat := (nodeFromEntry g 0 0 0 entry).firstCluster

def namesDirectory (entry : Entry) : Bool := entry.byte 11 &&& attrDirectory != 0

inductive DirAt : Nat → Nat → Prop where
  | root : DirAt 0 (root g).firstCluster
  | child {depth dir index : Nat} {entry : Entry} :
      DirAt depth dir → Lists g disk dir index entry → namesDirectory entry →
      DirAt (depth + 1) (headOf g entry)

end

structure Sound (g : Geometry) : Prop where
  start : g.start < 2 ^ 32
  clusters : g.clusters + 2 ≤ 2 ^ 30
  reserved : g.reserved < 2 ^ 16
  positive : 0 < g.sectorsPerCluster
  small : g.sectorsPerCluster ≤ 128
  fits : g.dataStart + g.clusters * g.sectorsPerCluster < 2 ^ 32
  root_low : g.rootStart < 2 ^ 31
  root_small : g.rootSectors ≤ 4096
  root_held : g.fatType = .fat32 → g.Holds g.rootCluster

def Cursor (g : Geometry) (v : Volume) : Prop :=
  ∀ dir hops cluster, v.dirCursor = some (dir, hops, cluster) → g.Holds dir ∧ hop g v.disk hops dir = some cluster

/-! ### Media from elsewhere -/

def dataStartOf (boot : Sector) : Nat :=
  le16 boot 14 + (boot.byte 16).toNat * fatSectorsOf boot + rootSectorsOf boot

/-- The boot sector leaves the metadata below sector 2^31 and has fewer than 2^30 clusters. -/
def Moderate (boot : Sector) : Prop :=
  dataStartOf boot < 2 ^ 31 ∧ (totalSectorsOf boot - dataStartOf boot) / (boot.byte 13).toNat + 2 ≤ 2 ^ 30

/-- The directories of the medium name clusters that it has, and they have few enough slots for the
counters of a check. -/
structure Harmless (g : Geometry) (disk : Nat → Sector) : Prop where
  root_held : g.fatType = .fat32 → g.Holds g.rootCluster
  heads : ∀ {depth dir index entry}, DirAt g disk depth dir → Lists g disk dir index entry →
    headOf g entry = 0 ∨ g.Holds (headOf g entry)
  allocated : ∀ {depth dir index entry}, DirAt g disk depth dir → Lists g disk dir index entry →
    namesDirectory entry → headOf g entry ≠ 0 → entryAt g disk (headOf g entry) ≠ 0
  counts : ∃ slots, (g.clusters + 3) * slots < 2 ^ 32 ∧
    ∀ depth dir index, DirAt g disk depth dir → slots ≤ index → slotAt g disk dir index = none

def listMany (g : Geometry) (fuel dir : Nat) : Nat → Nat → List Node → Call (List Node)
  | 0, _, nodes => pure nodes
  | count + 1, cursor, nodes => do
    match ← listNext g fuel dir cursor with
    | (none, _) => pure nodes
    | (some listed, cursor) => listMany g fuel dir count cursor (nodes ++ [listed.node])

/-- The calls on a mounted volume that write nothing; a handle is a place in the list of the nodes
that earlier calls returned. -/
inductive Request where
  | resolve (path : List UInt8)
  | list (handle : Nat) (cursor : UInt32) (count : Nat)
  | read (handle offset room : Nat)
  | info
  | fsck

def serve (g : Geometry) (fuel : Nat) (nodes : List Node) : Request → Call (List Node)
  | .resolve path => do
    let node ← resolve g fuel path
    pure (nodes ++ [node])
  | .list handle cursor count =>
    match nodes[handle]? with
    | some node => if node.isDirectory then listMany g fuel node.asDir count cursor.toNat nodes else pure nodes
    | none => pure nodes
  | .read handle offset room =>
    match nodes[handle]? with
    | some node => do
      let (_, node) ← readAt g fuel node offset room
      pure (nodes.set handle node)
    | none => pure nodes
  | .info => do
    let _ ← info g
    pure nodes
  | .fsck => do
    let _ ← fsck g fuel false
    pure nodes

structure Session where
  volume : Volume
  nodes : List Node

def attend (g : Geometry) (fuel : Nat) (s : Session) (request : Request) : Session :=
  match serve g fuel s.nodes request s.volume with
  | (.ok nodes, volume) => ⟨volume, nodes⟩
  | (.error _, volume) => ⟨volume, s.nodes⟩

def Answered {α : Type} (x : Call α) (v : Volume) : Prop := ∀ stop, (x v).1 = .error stop → Benign stop

end AerOS.Fat
