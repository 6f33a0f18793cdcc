import AerOS.Model.Pkg
import AerOS.Lib.Run

/-!
# Where a package may reach
-/

namespace AerOS.Pkg

def pathText (key : Key) : Text := key.flatMap fun part => slash :: part

def Safe (part : Text) : Prop := part ≠ [] ∧ part ≠ text "." ∧ part ≠ text ".." ∧ slash ∉ part

instance (part : Text) : Decidable (Safe part) := inferInstanceAs (Decidable (_ ∧ _ ∧ _ ∧ _))

abbrev apps : Text := text "apps"

abbrev db : Text := text "db"

structure Root (root : Key) : Prop where
  safe : ∀ part ∈ root, Safe part
  utf8 : validUtf8 (pathText root) = true
  short : (pathText root).length ≤ 48

/-- The name's directory, its file in the database, and a version's directory with all below it. -/
def Within (root : Key) (name : Text) (versions : Text → Prop) (path : Key) : Prop :=
  path = root ++ [apps, name] ∨ path = root ++ [db, name] ∨
    ∃ version, versions version ∧ root ++ [apps, name, version] <+: path

def VersionName (version : Text) : Prop :=
  nameValid version versionMax versionExtra = true ∧ version ≠ text "." ∧ version ≠ text ".."

/-- What a version in the database may be cut down to by a write that failed. -/
structure Part (version : Text) : Prop where
  chars : ∀ b ∈ version, isAlphanumeric b || versionExtra.contains b
  short : version.length ≤ versionMax
  noDot : version.head? ≠ some 46

def DbGood (content : Text) : Prop :=
  ∃ current previous, Part current ∧ Part previous ∧
    content <+: text "current=" ++ current ++ [newline] ++ (text "previous=" ++ previous ++ [newline])

/-- The directories of the package store are there, and what lies in it came from packages. -/
structure Ready (root : Key) (w : World) : Prop where
  above : ∀ i, 0 < i → i ≤ root.length → w.node (root.take i) = some .directory
  apps_dir : w.node (root ++ [apps]) = some .directory
  db_dir : w.node (root ++ [db]) = some .directory
  names : ∀ name content mode, w.node (root ++ [apps, name]) ≠ some (.file content mode)
  versions : ∀ name version content mode, w.node (root ++ [apps, name, version]) ≠ some (.file content mode)
  dbs : ∀ name content mode, w.node (root ++ [db, name]) = some (.file content mode) → DbGood content

inductive Call where
  | install (package signature : Text)
  | rollback (name : Text)
  | remove (name : Text)

def Effect.path : Effect → Key
  | .created path | .overwritten path | .remoded path | .removed path => path

def headerOf (w : World) (package : Text) : Option Header :=
  match w.node (components package) with
  | some (.file content _) => (parseHeader (content.take maxHeader)).toOption
  | _ => none

section
variable (sha256 : Text → Text) (authorise : Option Text → Text → Text → Except Failure Unit) (root : Key)

def step (w : World) (call : Call) : World :=
  let w := { w with effects := [] }
  match call with
  | .install package signature => (install sha256 authorise (pathText root) package signature w).2
  | .rollback name => (rollback (pathText root) name w).2
  | .remove name => (remove (pathText root) name w).2

/-- What a call may touch. A package it installs is the one its file had before the call. -/
def Confined (w : World) : Call → Effect → Prop
  | .install package _, .removed path =>
    ∃ header, headerOf w package = some header ∧ Within root header.name VersionName path
  | .install package _, effect =>
    ∃ header, headerOf w package = some header ∧ Within root header.name (· = header.version) effect.path
  | .rollback name, effect => (∀ path, effect ≠ .removed path) ∧ effect.path = root ++ [db, name]
  | .remove name, effect => ∃ path, effect = .removed path ∧ Within root name VersionName path

/-- No package's version begins with a dot, and a rollback is asked for by a package's name. -/
def Orderly (w : World) : Call → Prop
  | .install package _ => ∀ header, headerOf w package = some header → header.version.head? ≠ some 46
  | .rollback name => nameValid name nameMax nameExtra = true
  | .remove _ => True

end

end AerOS.Pkg
