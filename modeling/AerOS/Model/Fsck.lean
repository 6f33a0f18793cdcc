import AerOS.Model.Fat

/-!
# Checking a FAT volume (`Fs::fsck` of `kernel/src/fatfs.rs`)

The clusters that some entry owns are marked in a bit map while the directories are walked; what the
map does not hold at the end is freed.
-/

namespace AerOS.Fat
open Lib.Action

def fsckMapBytes : Nat := 131072

abbrev Marks := Nat → Bool

inductive ChainEnd where
  | good | broken | shared
  deriving DecidableEq, Repr

structure FsckReport where
  files : Nat := 0
  directories : Nat := 0
  brokenChains : Nat := 0
  crossLinked : Nat := 0
  duplicates : Nat := 0
  sizeMismatches : Nat := 0
  orphanClusters : Nat := 0
  chainsCut : Nat := 0
  deriving DecidableEq, Repr

structure Progressed where
  marks : Marks
  report : FsckReport

def fsckChain (g : Geometry) : Nat → Nat → Nat → Marks → Call (Nat × ChainEnd × Marks)
  | 0, _, _, _ => throw .hang
  | fuel + 1, cluster, length, marks =>
    if cluster < 2 then pure (length, .broken, marks)
    else do
      let past ← limit g
      if past ≤ cluster then pure (length, .broken, marks)
      else do
        within (cluster / 8) fsckMapBytes
        if marks cluster then pure (length, .shared, marks)
        else do
          let value ← fatGet g cluster
          if value = 0 then pure (length, .broken, marks)
          else do
            let marks := Function.update marks cluster true
            let length ← u32 (length + 1)
            if g.isEnd value then pure (length, .good, marks)
            else fsckChain g fuel value length marks

def cutPoint (g : Geometry) : Nat → Nat → Nat → Call (Option Nat)
  | 0, _, previous => pure (some previous)
  | hops + 1, cluster, previous =>
    if cluster < 2 then pure (some previous)
    else do
      let past ← limit g
      if past ≤ cluster then pure (some previous)
      else do
        let value ← fatGet g cluster
        if value = 0 then pure (some previous)
        else if g.isEnd value then pure none
        else cutPoint g hops value cluster

def fsckCut (g : Geometry) (first : Nat) (report : FsckReport) : Call FsckReport := do
  match ← cutPoint g (g.clusters + 1) first 0 with
  | none => pure report
  | some previous =>
    if 2 ≤ previous then do
      fatSet g previous g.endMarker
      let cut ← u32 (report.chainsCut + 1)
      pure { report with chainsCut := cut }
    else pure report

def countEntry (node : Node) (report : FsckReport) : Call FsckReport :=
  if node.isDirectory then do
    let n ← u32 (report.directories + 1)
    pure { report with directories := n }
  else do
    let n ← u32 (report.files + 1)
    pure { report with files := n }

def fsckBroken (g : Geometry) (repair : Bool) (node : Node) (length : Nat) (report : FsckReport) :
    Call (Node × FsckReport) := do
  let n ← u32 (report.brokenChains + 1)
  let report := { report with brokenChains := n }
  if !repair then pure (node, report)
  else if length = 0 then do
    let node := { node with firstCluster := 0 }
    updateEntry g node
    pure (node, report)
  else do
    let report ← fsckCut g node.firstCluster report
    pure (node, report)

def fsckSize (g : Geometry) (repair : Bool) (node : Node) (good : Nat) (report : FsckReport) :
    Call (Node × FsckReport) := do
  let bytes ← clusterBytes g
  if !node.isDirectory ∧ good * bytes < node.size then do
    let n ← u32 (report.sizeMismatches + 1)
    let report := { report with sizeMismatches := n }
    if repair then do
      let node := { node with size := good * bytes % 2 ^ 32 }
      updateEntry g node
      pure (node, report)
    else pure (node, report)
  else pure (node, report)

def fsckOutcome (g : Geometry) (repair : Bool) (node : Node) (length : Nat) (outcome : ChainEnd)
    (report : FsckReport) : Call (Option Node × FsckReport) :=
  match outcome with
  | .good => pure (some node, report)
  | .shared =>
    if length = 0 then do
      let n ← u32 (report.duplicates + 1)
      if repair then deleteEntries g node else pure ()
      pure (none, { report with duplicates := n })
    else do
      let n ← u32 (report.crossLinked + 1)
      pure (some node, { report with crossLinked := n })
  | .broken => do
    let (node, report) ← fsckBroken g repair node length report
    pure (some node, report)

def fsckEntry (g : Geometry) (fuel : Nat) (repair : Bool) (node : Node) (p : Progressed) :
    Call (Option Node × Progressed) := do
  let report ← countEntry node p.report
  if 2 ≤ node.firstCluster then do
    let (length, outcome, marks) ← fsckChain g fuel node.firstCluster 0 p.marks
    match ← fsckOutcome g repair node length outcome report with
    | (none, report) => pure (none, ⟨marks, report⟩)
    | (some node, report) => do
      let (node, report) ← fsckSize g repair node length report
      pure (some node, ⟨marks, report⟩)
  else do
    let (node, report) ← fsckSize g repair node 0 report
    pure (some node, ⟨p.marks, report⟩)

def enter (descend : Option (Nat → Progressed → Call Progressed)) (listed : Option Node) (p : Progressed) :
    Call Progressed :=
  match descend, listed with
  | some descend, some node =>
    if node.isDirectory ∧ 2 ≤ node.firstCluster then descend node.firstCluster p else pure p
  | _, _ => pure p

def fsckLoop (g : Geometry) (fuel : Nat) (repair : Bool) (descend : Option (Nat → Progressed → Call Progressed))
    (dir : Nat) : Nat → Nat → Progressed → Call Progressed
  | 0, _, _ => throw .hang
  | rounds + 1, cursor, p => do
    match ← listNext g fuel dir cursor with
    | (none, _) => pure p
    | (some listed, cursor) => do
      let (node, p) ← fsckEntry g fuel repair listed.node p
      let p ← enter descend node p
      fsckLoop g fuel repair descend dir rounds cursor p

/-- The walk below one directory, with the levels it may still go down: 8 less the depth. -/
def fsckDirectory (g : Geometry) (fuel : Nat) (repair : Bool) : Nat → Nat → Progressed → Call Progressed
  | 0, dir, p => fsckLoop g fuel repair none dir fuel 0 p
  | levels + 1, dir, p => fsckLoop g fuel repair (some (fsckDirectory g fuel repair levels)) dir fuel 0 p

def freeOrphans (g : Geometry) (repair : Bool) (marks : Marks) : List Nat → FsckReport → Call FsckReport
  | [], report => pure report
  | cluster :: rest, report => do
    within (cluster / 8) fsckMapBytes
    if marks cluster then freeOrphans g repair marks rest report
    else do
      let value ← fatGet g cluster
      if value = 0 then freeOrphans g repair marks rest report
      else do
        let n ← u32 (report.orphanClusters + 1)
        if repair then fatSet g cluster 0 else pure ()
        freeOrphans g repair marks rest { report with orphanClusters := n }

def fsckRoot (g : Geometry) (fuel : Nat) (repair : Bool) : Call (Nat × Progressed) :=
  match g.fatType with
  | .fat16 => pure (0, ⟨fun _ => false, {}⟩)
  | .fat32 => do
    let (_, outcome, marks) ← fsckChain g fuel g.rootCluster 0 fun _ => false
    if outcome ≠ .good ∧ repair then do
      let report ← fsckCut g g.rootCluster {}
      pure (g.rootCluster, ⟨marks, report⟩)
    else pure (g.rootCluster, ⟨marks, {}⟩)

def fsck (g : Geometry) (fuel : Nat) (repair : Bool) : Call FsckReport :=
  if fsckMapBytes * 8 < g.clusters + 2 then fail .unsupported
  else do
    let (dir, p) ← fsckRoot g fuel repair
    let p ← fsckDirectory g fuel repair 8 dir p
    let past ← limit g
    let report ← freeOrphans g repair p.marks (List.range' 2 (past - 2)) p.report
    if repair then modify fun v => { v with freeHint := 2 } else pure ()
    pure report

end AerOS.Fat
