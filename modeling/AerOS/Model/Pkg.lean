import AerOS.Model.Vfs
import Mathlib.Data.List.SplitOn

/-!
# Packages (`kernel/src/pkg.rs`)

Texts are their UTF-8 bytes. The filesystem is a mounted FAT or AerFS volume, on which there are no links: a table from
the components of a path, folded where the volume does not tell cases apart. Any of its operations may fail, and a write
that fails may have written a part.
Whether the signature of a package is good is for `authorise` to say.
-/

namespace AerOS.Pkg
open Lib Lib.Action
open Vfs (VfsError)

abbrev Text : Type := List UInt8

@[irreducible] def text (s : String) : Text := s.toUTF8.toList

abbrev slash : UInt8 := 47
abbrev semicolon : UInt8 := 59
abbrev newline : UInt8 := 10

def maxFiles : Nat := 16
def maxHeader : Nat := 2048
def maxManifest : Nat := 4096
def nameMax : Nat := 24
def versionMax : Nat := 16
def pathMax : Nat := 96
def pathBuffer : Nat := 192
def fileMax : Nat := 2 ^ 20

inductive Failure where
  | noTrustedKeys
  | badSignature
  | malformed
  | badName
  | badPath
  | tooLarge
  | hashMismatch
  | alreadyInstalled
  | notInstalled
  | noPrevious
  | missing
  | storage (error : VfsError)
  deriving DecidableEq

/-- Where a UTF-8 decoder is: between two characters, or with so many bytes of one still to come and
the next of them in a range. -/
inductive Utf8 where
  | between
  | within (left : Nat) (low high : UInt8)
  | broken
  deriving DecidableEq

def Utf8.step : Utf8 → UInt8 → Utf8
  | .between, b =>
    if b < 0x80 then .between
    else if 0xc2 ≤ b ∧ b ≤ 0xdf then .within 0 0x80 0xbf
    else if b = 0xe0 then .within 1 0xa0 0xbf
    else if b = 0xed then .within 1 0x80 0x9f
    else if 0xe1 ≤ b ∧ b ≤ 0xef then .within 1 0x80 0xbf
    else if b = 0xf0 then .within 2 0x90 0xbf
    else if 0xf1 ≤ b ∧ b ≤ 0xf3 then .within 2 0x80 0xbf
    else if b = 0xf4 then .within 2 0x80 0x8f
    else .broken
  | .within left low high, b =>
    if low ≤ b ∧ b ≤ high then
      match left with
      | 0 => .between
      | left + 1 => .within left 0x80 0xbf
    else .broken
  | .broken, _ => .broken

def validUtf8 (bytes : Text) : Bool := bytes.foldl Utf8.step .between = .between

/-- What is left of a text written into a buffer of `limit` bytes, as `as_str` reads it back. -/
def asStr (limit : Nat) (bytes : Text) : Text :=
  if validUtf8 (bytes.take limit) then bytes.take limit else []

def join (parts : List Text) : Text := asStr pathBuffer parts.flatten

def isAlphanumeric (b : UInt8) : Bool := (48 ≤ b ∧ b ≤ 57) ∨ (65 ≤ b ∧ b ≤ 90) ∨ (97 ≤ b ∧ b ≤ 122)

def isGraphic (b : UInt8) : Bool := 33 ≤ b ∧ b ≤ 126

def nameValid (name : Text) (limit : Nat) (extra : Text) : Bool :=
  name ≠ [] ∧ name.length ≤ limit ∧ name.all fun b => isAlphanumeric b || extra.contains b

def nameExtra : Text := text "-_"

def versionExtra : Text := text ".-_"

def pathValid (path : Text) : Bool :=
  path ≠ [] ∧ path.length ≤ pathMax ∧ path.head? ≠ some slash ∧ (path.splitOn slash).length ≤ 8 ∧
    (path.splitOn slash).all fun part =>
      part ≠ [] ∧ part ≠ text "." ∧ part ≠ text ".." ∧ part.all fun b => isGraphic b && b ≠ semicolon

def stripPrefix (lead line : Text) : Option Text :=
  if lead.isPrefixOf line then some (line.drop lead.length) else none

def lines (content : Text) : List Text :=
  let parts := content.splitOn newline
  let ended := parts.dropLast.map fun line => if line.getLast? = some 13 then line.dropLast else line
  if parts.getLast? = some [] then ended else ended ++ parts.getLast?.toList

def digit (radix : Nat) (b : UInt8) : Option Nat :=
  if 48 ≤ b ∧ b.toNat < 48 + radix then some (b.toNat - 48) else none

def parseNumber (radix limit : Nat) (field : Text) : Option Nat :=
  let digits := if field.head? = some 43 then field.tail else field
  if digits = [] then none
  else (digits.foldlM (fun value b => (digit radix b).map fun d => value * radix + d) 0).filter (· < limit)

def hexDigit (b : UInt8) : Option UInt8 :=
  if 48 ≤ b ∧ b ≤ 57 then some (b - 48)
  else if 97 ≤ b ∧ b ≤ 102 then some (b - 87)
  else if 65 ≤ b ∧ b ≤ 70 then some (b - 55)
  else none

def decodePairs : Text → Option Text
  | [] => some []
  | high :: low :: rest => do
    let h ← hexDigit high
    let l ← hexDigit low
    let bytes ← decodePairs rest
    return (h * 16 + l) :: bytes
  | [_] => none

def textToHash (field : Text) : Option Text := if field.length = 64 then decodePairs field else none

structure Entry where
  path : Text
  mode : Nat
  size : Nat
  hash : Text
  deriving DecidableEq

structure Header where
  name : Text
  version : Text
  entries : List Entry
  dataStart : Nat

def parseEntry (spec : Text) : Except Failure Entry :=
  match spec.splitOn semicolon with
  | [path, mode, size, hash] =>
    if !pathValid path then .error .badPath
    else
      match parseNumber 8 (2 ^ 16) mode, parseNumber 10 (2 ^ 64) size with
      | some mode, some size =>
        if mode > 0o777 then .error .malformed
        else if size > fileMax then .error .tooLarge
        else
          match textToHash hash with
          | some hash => .ok ⟨path, mode, size, hash⟩
          | none => .error .malformed
      | _, _ => .error .malformed
  | _ => .error .malformed

structure Fields where
  name : Option Text
  version : Option Text
  entries : List Entry

def parseLine (fields : Fields) (line : Text) : Except Failure Fields :=
  match stripPrefix (text "name=") line with
  | some name =>
    if fields.name.isSome ∨ !nameValid name nameMax nameExtra then .error .badName
    else .ok { fields with name := some name }
  | none =>
    match stripPrefix (text "version=") line with
    | some version =>
      if fields.version.isSome ∨ !nameValid version versionMax versionExtra then .error .badName
      else .ok { fields with version := some version }
    | none =>
      match stripPrefix (text "file=") line with
      | some spec =>
        if fields.entries.length = maxFiles then .error .tooLarge
        else (parseEntry spec).map fun entry => { fields with entries := fields.entries ++ [entry] }
      | none => .error .malformed

def marker : Text := text "\ndata\n"

def findMarker : Nat → Text → Option Nat
  | _, [] => none
  | at_, b :: bytes => if marker.isPrefixOf (b :: bytes) then some at_ else findMarker (at_ + 1) bytes

def parseHeader (raw : Text) : Except Failure Header :=
  match findMarker 0 raw with
  | none => .error .malformed
  | some stop =>
    if !validUtf8 (raw.take stop) then .error .malformed
    else
      match (raw.take stop).splitOn newline with
      | [] => .error .malformed
      | magic :: rest =>
        if magic ≠ text "AEROSPKG1" then .error .malformed
        else
          match rest.foldlM parseLine ⟨none, none, []⟩ with
          | .error failure => .error failure
          | .ok ⟨some name, some version, entries⟩ =>
            if entries = [] then .error .malformed
            else .ok ⟨name, version, entries, stop + marker.length⟩
          | .ok _ => .error .malformed

abbrev Key : Type := List Text

inductive Node where
  | directory
  | file (content : Text) (mode : Nat)
  deriving DecidableEq

def components (path : Text) : Key := (path.splitOn slash).filter fun part => part ≠ [] ∧ part ≠ text "."

inductive Effect where
  | created (path : Key)
  | overwritten (path : Key)
  | remoded (path : Key)
  | removed (path : Key)
  deriving DecidableEq

structure World where
  nodes : List (Key × Node)
  /-- A FAT volume takes upper and lower case for the same name and a dot for no name, an AerFS volume does not. -/
  caseless : Bool
  /-- How the operations that are still to come answer: the error one fails with, and how much a
  write has then written. -/
  answers : Nat → Option (VfsError × Nat)
  turn : Nat
  effects : List Effect

abbrev M : Type → Type := Action World Failure

def foldCase (name : Text) : Text := name.map fun b => if 97 ≤ b ∧ b ≤ 122 then b - 32 else b

def World.key (w : World) (path : Key) : Key := if w.caseless then path.map foldCase else path

def World.node (w : World) (path : Key) : Option Node :=
  (w.nodes.find? fun entry => entry.1 = w.key path).map Prod.snd

def World.put (w : World) (path : Key) (node : Node) : World :=
  { w with nodes := (w.key path, node) :: w.nodes.filter fun entry => entry.1 ≠ w.key path }

def World.erase (w : World) (path : Key) : World :=
  { w with nodes := w.nodes.filter fun entry => entry.1 ≠ w.key path }

def World.occupied (w : World) (path : Key) : Bool :=
  w.nodes.any fun entry => (w.key path).isPrefixOf entry.1 ∧ entry.1 ≠ w.key path

def note (effect : Effect) : M Unit := modify fun w => { w with effects := w.effects ++ [effect] }

def fail {α : Type} (error : VfsError) : M α := throw (.storage error)

def ask : M (Option (VfsError × Nat)) := fun w => (.ok (w.answers w.turn), { w with turn := w.turn + 1 })

def willing : M Unit := do
  let answer ← ask
  match answer with
  | some refusal => fail refusal.1
  | none => pure ()

/-- Two dots are looked up as a name, and so is one on AerFS; no directory has such a name. -/
def World.refuses (w : World) (path : Text) : Bool :=
  (path.splitOn slash).any fun part => part = text ".." ∨ w.caseless = false ∧ part = text "."

def reach (path : Text) : M Unit := do
  willing
  let w ← get
  if w.refuses path then fail .notFound else pure ()

/-- Where something new may be made: in a directory, under a name. -/
def World.vacant (w : World) (path : Text) : Bool :=
  w.node (components path).dropLast = some .directory ∧ components path ≠ [] ∧
    (path.splitOn slash).getLast? ≠ some (text ".")

def readAll (path : Text) (limit : Nat) : M Text := do
  reach path
  let w ← get
  match w.node (components path) with
  | some (.file content _) => pure (content.take limit)
  | some .directory => fail .isDirectory
  | none => fail .notFound

def openWrite (path : Text) (mode : Nat) : M Unit := do
  reach path
  let w ← get
  match w.node (components path) with
  | some .directory => fail .isDirectory
  | some (.file _ old) => do
    modify fun w => w.put (components path) (.file [] old)
    note (.overwritten (components path))
  | none =>
    if w.vacant path then do
      modify fun w => w.put (components path) (.file [] mode)
      note (.created (components path))
    else fail .notFound

def writeOpened (path content : Text) : M Unit := do
  let answer ← ask
  let w ← get
  match w.node (components path) with
  | some (.file _ mode) =>
    match answer with
    | none => modify fun w => w.put (components path) (.file content mode)
    | some (error, count) => do
      modify fun w => w.put (components path) (.file (content.take count) mode)
      fail error
  | _ => fail .badDescriptor

def writeAll (path content : Text) : M Unit := do
  openWrite path 0o644
  writeOpened path content

def createDirectory (path : Text) : M Unit := do
  reach path
  let w ← get
  match w.node (components path) with
  | some _ => fail .alreadyExists
  | none =>
    if w.vacant path then do
      modify fun w => w.put (components path) .directory
      note (.created (components path))
    else fail .notFound

def isDirectory (path : Text) : M Bool := do
  let answer ← ask
  let w ← get
  pure (answer.isNone ∧ w.refuses path = false ∧ w.node (components path) = some .directory)

def chmod (path : Text) (mode : Nat) : M Unit := do
  reach path
  let w ← get
  match w.node (components path) with
  | some (.file content _) => do
    modify fun w => w.put (components path) (.file content mode)
    note (.remoded (components path))
  | some .directory => note (.remoded (components path))
  | none => fail .notFound

def removeNode (path : Text) (directory : Bool) : M Unit := do
  reach path
  let w ← get
  match w.node (components path) with
  | none => fail .notFound
  | some (.file _ _) =>
    if directory then fail .notDirectory
    else do
      modify fun w => w.erase (components path)
      note (.removed (components path))
  | some .directory =>
    if !directory then fail .isDirectory
    else if w.occupied (components path) ∨ components path = [] then fail .notEmpty
    else do
      modify fun w => w.erase (components path)
      note (.removed (components path))

def attemptTo (x : M Unit) : M Unit := attempt x pure fun _ => pure ()

def makeDirectory (built : Text) : M Unit :=
  attempt (createDirectory built) pure fun failure =>
    if failure = .storage .alreadyExists then pure ()
    else do
      let exists_ ← isDirectory built
      if exists_ then pure () else throw failure

def ancestors (path : Text) : List Text :=
  let parts := (path.splitOn slash).filter (· ≠ [])
  (List.range parts.length).map fun i =>
    asStr pathBuffer ((parts.take (i + 1)).flatMap fun part => slash :: part)

def makeDirectories (path : Text) : M Unit := forEach (ancestors path) makeDirectory

structure Db where
  current : Text
  previous : Option Text

def readDbLine (found : Option Text × Option Text) (line : Text) : Option Text × Option Text :=
  match stripPrefix (text "current=") line with
  | some version => (some (asStr versionMax version), found.2)
  | none =>
    match stripPrefix (text "previous=") line with
    | some version => if version ≠ text "-" then (found.1, some (asStr versionMax version)) else found
    | none => found

def parseDb (content : Text) : Option Db :=
  if !validUtf8 content then none
  else
    let found := (lines content).foldl readDbLine (none, none)
    found.1.map fun current => ⟨current, found.2⟩

def dbPath (root name : Text) : Text := join [root, text "/db/", name]

def readDb (root name : Text) : M (Option Db) :=
  attempt (readAll (dbPath root name) 96) (fun content => pure (parseDb content)) fun _ => pure none

def dbText (db : Db) : Text :=
  (text "current=" ++ db.current ++ [newline] ++ text "previous=" ++ db.previous.getD (text "-") ++ [newline]).take 96

def writeDb (root name : Text) (db : Db) : M Unit := do
  makeDirectories (join [root, text "/db"])
  writeAll (dbPath root name) (dbText db)

def versionDirectory (root name version : Text) : Text := join [root, text "/apps/", name, [slash], version]

def nameDirectory (root name : Text) : Text := join [root, text "/apps/", name]

def entryPath (directory : Text) (entry : Entry) : Text := join [directory, [slash], entry.path]

def manifestPath (directory : Text) : Text := join [directory, text "/MANIFEST"]

def entryDirectories (directory : Text) (entry : Entry) : List Text :=
  let parts := entry.path.splitOn slash
  ((List.range (parts.length - 1)).reverse).map fun i =>
    asStr pathBuffer (directory ++ (parts.take (i + 1)).flatMap fun part => slash :: part)

def removeEntries (directory : Text) (entries : List Entry) : M Unit := do
  forEach entries fun entry => attemptTo (removeNode (entryPath directory entry) false)
  forEach entries fun entry => forEach (entryDirectories directory entry) fun path => attemptTo (removeNode path true)
  attemptTo (removeNode (manifestPath directory) false)
  attemptTo (removeNode directory true)

def parseManifest (content : Text) : Except Failure (List Entry) :=
  if !validUtf8 content then .error .malformed
  else (lines content).foldlM (fun entries line =>
    if entries.length = maxFiles then .error .tooLarge
    else (parseEntry line).map fun entry => entries ++ [entry]) []

def manifestEntries (directory : Text) : M (List Entry) :=
  attempt (readAll (manifestPath directory) maxManifest)
    (fun content => match parseManifest content with
      | .ok entries => pure entries
      | .error _ => pure [])
    fun _ => pure []

def removeVersion (root name version : Text) : M Unit := do
  let directory := versionDirectory root name version
  let entries ← manifestEntries directory
  removeEntries directory entries
  attemptTo (removeNode (nameDirectory root name) true)

def digits (radix : Nat) : Nat → Nat → Text
  | 0, _ => []
  | fuel + 1, value =>
    if value < radix then [UInt8.ofNat (48 + value)]
    else digits radix fuel (value / radix) ++ [UInt8.ofNat (48 + value % radix)]

def hexText (bytes : Text) : Text :=
  bytes.flatMap fun b =>
    [b / 16, b % 16].map fun d => if d < 10 then 48 + d else 87 + d

def manifestText (entries : List Entry) : Text :=
  (entries.flatMap fun entry =>
    entry.path ++ [semicolon] ++ digits 8 6 entry.mode ++ [semicolon] ++ digits 10 20 entry.size ++ [semicolon] ++
      hexText entry.hash ++ [newline]).take maxManifest

section
variable (sha256 : Text → Text) (authorise : Option Text → Text → Text → Except Failure Unit)

/-- Copies one file of a package. The source reads and writes it in pieces of 512 bytes; a write that
fails leaves what the pieces before it brought. -/
def copyOne (package : Text) (offset : Nat) (directory : Text) (entry : Entry) : M Unit := do
  let path := entryPath directory entry
  let parent := path.reverse.dropWhile (· ≠ slash)
  makeDirectories parent.tail.reverse
  openWrite path entry.mode
  let data := (package.drop offset).take entry.size
  writeOpened path data
  if data.length < entry.size then throw .malformed
  else if sha256 data ≠ entry.hash then throw .hashMismatch
  else chmod path entry.mode

def copyEntries (package : Text) (directory : Text) : Nat → Nat → List Entry → M (Nat × Option Failure)
  | _, written, [] => pure (written, none)
  | offset, written, entry :: entries =>
    attempt (copyOne sha256 package offset directory entry)
      (fun _ => copyEntries package directory (offset + entry.size) (written + 1) entries)
      fun failure => pure (written + 1, some failure)

def copyFiles (package : Text) (header : Header) (directory : Text) : M (Nat × Option Failure) :=
  attempt (makeDirectories directory)
    (fun _ => attempt willing
      (fun _ => copyEntries sha256 package directory header.dataStart 0 header.entries)
      fun failure => pure (0, some failure))
    fun failure => pure (0, some failure)

def retire (root name : Text) : Option Text → M Unit
  | some old => removeVersion root name old
  | none => pure ()

def installHeader (root package : Text) (header : Header) : M Unit := do
  let existing ← readDb root header.name
  let known := existing.any fun db => db.current = header.version ∨ db.previous = some header.version
  let directory := versionDirectory root header.name header.version
  if known then throw .alreadyInstalled
  else do
    let outcome ← copyFiles sha256 package header directory
    match outcome.2 with
    | some failure => do
      removeEntries directory (header.entries.take outcome.1)
      attemptTo (removeNode (nameDirectory root header.name) true)
      throw failure
    | none => do
      writeAll (manifestPath directory) (manifestText header.entries)
      writeDb root header.name ⟨header.version, existing.map fun db => db.current⟩
      retire root header.name (existing.bind fun db => db.previous)

def trustedKeys (root : Text) : M (Option Text) :=
  attempt (readAll (join [root, text "/trusted.keys"]) (8 * 65 + 8)) (fun keys => pure (some keys)) fun _ => pure none

def wholeFile (path : Text) : M Text := do
  let w ← get
  match w.node (components path) with
  | some (.file content _) => if w.refuses path then fail .notFound else pure content
  | _ => fail .notFound

def install (root package signature : Text) : M (Text × Text) := do
  let keys ← trustedKeys root
  let raw ← readAll signature 65
  let content ← wholeFile package
  match authorise keys raw content with
  | .error failure => throw failure
  | .ok () => do
    let head ← readAll package maxHeader
    match parseHeader head with
    | .error failure => throw failure
    | .ok header =>
      if content.length ≠ header.dataStart + (header.entries.map Entry.size).sum then throw .malformed
      else do
        installHeader sha256 root content header
        pure (header.name, header.version)

end

def rollback (root name : Text) : M Text := do
  let db ← readDb root name
  match db with
  | none => throw .notInstalled
  | some ⟨_, none⟩ => throw .noPrevious
  | some ⟨current, some previous⟩ => do
    writeDb root name ⟨previous, some current⟩
    pure previous

def remove (root name : Text) : M Unit := do
  if !nameValid name nameMax nameExtra then throw .badName
  else do
    let db ← readDb root name
    match db with
    | none => throw .notInstalled
    | some db => do
      removeVersion root name db.current
      retire root name db.previous
      removeNode (dbPath root name) false

end AerOS.Pkg
