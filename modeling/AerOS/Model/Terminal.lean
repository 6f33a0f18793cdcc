import AerOS.Lib.Words

/-!
# The Terminal's screen (`kernel/src/desktop_vt.rs`)

A function returns `none` where the source panics. Arrays are functions of the index; numbers of rows and
columns that a position inside the grid keeps small are not checked.
-/

namespace AerOS.Terminal
open Lib Function

def rows : Nat := 14

def cols : Nat := 56

def maxParams : Nat := 8

def replyRoom : Nat := 32

def bold : UInt8 := 1

def reverse : UInt8 := 2

abbrev Grid := Nat → Nat → UInt8

inductive Parse where
  | ground | escape | csi | osc | charset
  deriving DecidableEq, Repr

structure Screen where
  cells : Grid := fun _ _ => 32
  attrs : Grid := fun _ _ => 0
  attr : UInt8 := 0
  row : Nat := 0
  col : Nat := 0
  wrapPending : Bool := false
  top : Nat := 0
  bottom : Nat := rows - 1
  saved : Nat × Nat := (0, 0)
  main : Option (Grid × Grid × Nat × Nat) := none
  appCursor : Bool := false
  cursorVisible : Bool := true
  crlf : Bool := true
  parse : Parse := .ground
  params : Nat → UInt16 := fun _ => 0
  count : Nat := 0
  isPrivate : Bool := false
  replies : Nat → UInt8 := fun _ => 0
  repliesLen : Nat := 0

namespace Screen

def empty : Screen := {}

def load (lines : List (List UInt8)) : Screen :=
  let keep := min lines.length (rows - 1)
  let shown := lines.drop (lines.length - keep)
  { empty with
    cells := fun row col => if col < cols then ((shown.getD row []).getD col 32) else 32
    row := keep }

def finish (s : Screen) : Screen :=
  match s.main with
  | none => s
  | some (cells, attrs, row, col) => { s with cells, attrs, row, col, main := none }

def takeReplies (s : Screen) (room : Nat) : Option (List UInt8 × Screen) := do
  let count := min s.repliesLen room
  guard (count ≤ replyRoom)
  return ((List.range count).map s.replies, { s with repliesLen := 0 })

def reply (s : Screen) (bytes : List UInt8) : Option Screen := do
  let count := min bytes.length (← checkedSub replyRoom s.repliesLen)
  return { s with
    replies := fun i =>
      if s.repliesLen ≤ i ∧ i < s.repliesLen + count then bytes.getD (i - s.repliesLen) 0 else s.replies i
    repliesLen := s.repliesLen + count }

/-- Changes the cells and their attributes, if all indices are in range. -/
def draw (s : Screen) (fits : Prop) [Decidable fits] (cells attrs : Grid → Grid) : Option Screen :=
  if fits then some { s with cells := cells s.cells, attrs := attrs s.attrs } else none

def fill (row start stop : Nat) (value : UInt8) (grid : Grid) : Grid :=
  update grid row fun col => if start ≤ col ∧ col < stop then value else grid row col

def blank (s : Screen) (row start stop : Nat) : Option Screen :=
  s.draw (row < rows ∧ start ≤ stop ∧ stop ≤ cols) (fill row start stop 32) (fill row start stop 0)

def blankRows (s : Screen) (start stop : Nat) : Option Screen :=
  (List.range' start (stop - start)).foldlM (fun s row => s.blank row 0 cols) s

/-- Where an element comes from that `copy_within(start..stop, dest)` leaves at an index. -/
def source (start stop dest index : Nat) : Nat :=
  if dest ≤ index ∧ index < dest + (stop - start) then start + (index - dest) else index

def copyRows (s : Screen) (start stop dest : Nat) : Option Screen :=
  let copy (grid : Grid) : Grid := fun row => grid (source start stop dest row)
  s.draw (start ≤ stop ∧ stop ≤ rows ∧ dest + (stop - start) ≤ rows) copy copy

def copyCells (s : Screen) (row start stop dest : Nat) : Option Screen :=
  let copy (grid : Grid) : Grid := update grid row fun col => grid row (source start stop dest col)
  s.draw (row < rows ∧ start ≤ stop ∧ stop ≤ cols ∧ dest + (stop - start) ≤ cols) copy copy

def scrollUp (s : Screen) (count : Nat) : Option Screen := do
  let count := min count (← checkedSub (s.bottom + 1) s.top)
  let moved ← s.copyRows (s.top + count) (s.bottom + 1) s.top
  moved.blankRows (← checkedSub (s.bottom + 1) count) (s.bottom + 1)

def scrollDown (s : Screen) (count : Nat) : Option Screen := do
  let count := min count (← checkedSub (s.bottom + 1) s.top)
  let last ← checkedSub s.bottom count
  let moved ← s.copyRows s.top (last + 1) (s.top + count)
  moved.blankRows s.top (s.top + count)

def lineFeed (s : Screen) : Option Screen :=
  if s.row = s.bottom then s.scrollUp 1
  else if s.row + 1 < rows then some { s with row := s.row + 1 }
  else some s

def reverseIndex (s : Screen) : Option Screen :=
  if s.row = s.top then s.scrollDown 1 else some { s with row := s.row - 1 }

def write (s : Screen) (byte : UInt8) : Option Screen :=
  let set (value : UInt8) (grid : Grid) : Grid := update grid s.row (update (grid s.row) s.col value)
  (s.draw (s.row < rows ∧ s.col < cols) (set byte) (set s.attr)).map fun (s : Screen) =>
    if s.col + 1 = cols then { s with wrapPending := true } else { s with col := s.col + 1 }

def put (s : Screen) (byte : UInt8) : Option Screen :=
  if s.wrapPending then { s with wrapPending := false, col := 0 }.lineFeed.bind (write · byte) else s.write byte

def rendition (attr : UInt8) (code : Nat) : UInt8 :=
  match code with
  | 0 => 0
  | 1 => attr ||| bold
  | 22 => attr &&& ~~~bold
  | 7 => attr ||| reverse
  | 27 => attr &&& ~~~reverse
  | 39 => attr &&& 0x0f
  | code =>
    if (30 ≤ code ∧ code ≤ 37) ∨ (90 ≤ code ∧ code ≤ 97) then
      (attr &&& 0x0f) ||| (UInt8.ofNat (code % 10 + 1) <<< (4 : UInt8))
    else attr

def selectRendition (s : Screen) : List Nat → Option Screen
  | [] => some s
  | index :: rest => do
    guard (index < maxParams)
    if s.params index = 38 ∨ s.params index = 48 then some s
    else selectRendition { s with attr := rendition s.attr (s.params index).toNat } rest

def param (s : Screen) (index default : Nat) : Option Nat := do
  guard (index < s.count → index < maxParams)
  let value := if index < s.count then (s.params index).toNat else 0
  return if value = 0 then default else value

def alternate (s : Screen) (set : Bool) : Option Screen := do
  let s ←
    if set ∧ s.main.isNone then
      ({ s with main := some (s.cells, s.attrs, s.row, s.col) }.blankRows 0 rows).map fun (s : Screen) =>
        { s with row := 0, col := 0 }
    else if set then some s
    else some s.finish
  return { s with top := 0, bottom := rows - 1 }

def setMode (s : Screen) (set : Bool) : Nat → Option Screen
  | 1 => some { s with appCursor := set }
  | 25 => some { s with cursorVisible := set }
  | 47 | 1047 | 1049 => s.alternate set
  | _ => some s

def setModes (s : Screen) (set : Bool) : List Nat → Option Screen
  | [] => some s
  | index :: rest => do
    guard (index < maxParams)
    (← s.setMode set (s.params index).toNat).setModes set rest

def digits (value : Nat) : List UInt8 :=
  (if value ≥ 10 then [48 + UInt8.ofNat (value / 10 % 10)] else []) ++ [48 + UInt8.ofNat (value % 10)]

def positionReply (row col : Nat) : Option (List UInt8) := do
  let answer := [0x1b, 91] ++ digits row ++ [59] ++ digits col ++ [82]
  guard (answer.length ≤ 16)
  return answer

def control (s : Screen) (first : Nat) : UInt8 → Option Screen
  | 65 => some { s with row := max (s.row - first) (min s.top s.row) }  -- A
  | 66 => do return { s with row := min (← checkedAdd s.row first) (max s.bottom s.row) }  -- B
  | 67 => do return { s with col := min (← checkedAdd s.col first) (cols - 1) }  -- C
  | 68 => some { s with col := s.col - first }  -- D
  | 69 => do return { s with row := min (← checkedAdd s.row first) (rows - 1), col := 0 }  -- E
  | 70 => some { s with row := s.row - first, col := 0 }  -- F
  | 71 | 96 => do return { s with col := min (← checkedSub first 1) (cols - 1) }  -- G grave
  | 100 => do return { s with row := min (← checkedSub first 1) (rows - 1) }  -- d
  | 72 | 102 => do  -- H f
    let row := min (← checkedSub first 1) (rows - 1)
    return { s with row, col := min (← checkedSub (← s.param 1 1) 1) (cols - 1) }
  | 74 => do  -- J
    match ← s.param 0 0 with
    | 0 => (← s.blank s.row s.col cols).blankRows (s.row + 1) rows
    | 1 => (← s.blankRows 0 s.row).blank s.row 0 (s.col + 1)
    | _ => s.blankRows 0 rows
  | 75 => do  -- K
    match ← s.param 0 0 with
    | 0 => s.blank s.row s.col cols
    | 1 => s.blank s.row 0 (s.col + 1)
    | _ => s.blank s.row 0 cols
  | 109 => s.selectRendition (List.range (max s.count 1))  -- m
  | 76 =>  -- L
    if s.top ≤ s.row ∧ s.row ≤ s.bottom then
      ({ s with top := s.row }.scrollDown first).map fun (scrolled : Screen) => { scrolled with top := s.top, col := 0 }
    else some s
  | 77 =>  -- M
    if s.top ≤ s.row ∧ s.row ≤ s.bottom then
      ({ s with top := s.row }.scrollUp first).map fun (scrolled : Screen) => { scrolled with top := s.top, col := 0 }
    else some s
  | 80 => do  -- P
    let count := min first (← checkedSub cols s.col)
    (← s.copyCells s.row (s.col + count) cols s.col).blank s.row (← checkedSub cols count) cols
  | 64 => do  -- @
    let count := min first (← checkedSub cols s.col)
    (← s.copyCells s.row s.col (← checkedSub cols count) (s.col + count)).blank s.row s.col (s.col + count)
  | 88 => do s.blank s.row s.col (min (← checkedAdd s.col first) cols)  -- X
  | 83 => s.scrollUp first  -- S
  | 84 => s.scrollDown first  -- T
  | 114 => do  -- r
    let top ← checkedSub (← s.param 0 1) 1
    let bottom ← checkedSub (min (← s.param 1 rows) rows) 1
    return if top < bottom then { s with top, bottom, row := 0, col := 0 } else s
  | 115 => some { s with saved := (s.row, s.col) }  -- s
  | 117 => some { s with row := s.saved.1, col := s.saved.2 }  -- u
  | 110 => do  -- n
    match ← s.param 0 0 with
    | 5 => s.reply [0x1b, 91, 48, 110]
    | 6 => s.reply (← positionReply (s.row + 1) (s.col + 1))
    | _ => some s
  | 99 => s.reply [0x1b, 91, 63, 49, 59, 50, 99]  -- c
  | _ => some s

def csi (s : Screen) (last : UInt8) : Option Screen := do
  let first ← s.param 0 1
  let s := { s with wrapPending := false }
  if s.isPrivate then
    match last with
    | 104 => s.setModes true (List.range s.count)
    | 108 => s.setModes false (List.range s.count)
    | _ => some s
  else s.control first last

def escape (s : Screen) : UInt8 → Option Screen
  | 91 => some { s with parse := .csi, params := fun _ => 0, count := 0, isPrivate := false }  -- [
  | 93 => some { s with parse := .osc }  -- ]
  | 40 | 41 | 42 | 43 | 35 => some { s with parse := .charset }  -- ( ) * + #
  | 55 => some { s with saved := (s.row, s.col) }  -- 7
  | 56 => some { s with row := s.saved.1, col := s.saved.2, wrapPending := false }  -- 8
  | 68 => s.lineFeed  -- D
  | 69 => { s with col := 0 }.lineFeed  -- E
  | 77 => s.reverseIndex  -- M
  | 99 => some empty  -- c
  | _ => some s

def sequence (s : Screen) (byte : UInt8) : Option Screen :=
  if 48 ≤ byte ∧ byte ≤ 57 then do
    let slot := min s.count (maxParams - 1)
    guard (slot < maxParams)
    let value := min (min ((s.params slot).toNat * 10) 65535 + (byte.toNat - 48)) 65535
    return { s with params := update s.params slot (UInt16.ofNat value) }
  else if byte = 59 then some { s with count := min (s.count + 1) (maxParams - 1) }
  else if byte = 63 ∨ byte = 62 ∨ byte = 61 then some { s with isPrivate := true }
  else if 0x40 ≤ byte ∧ byte ≤ 0x7e then
    { s with parse := .ground, count := s.count + 1 }.csi byte
  else some s

def ground (s : Screen) (byte : UInt8) : Option Screen :=
  match byte with
  | 0x1b => some { s with parse := .escape }
  | 13 => some { s with col := 0, wrapPending := false }
  | 10 | 0x0b | 0x0c => { s with wrapPending := false, col := if s.crlf then 0 else s.col }.lineFeed
  | 0x08 => some { s with col := s.col - 1, wrapPending := false }
  | 9 => some { s with col := min ((s.col / 8 + 1) * 8) (cols - 1), wrapPending := false }
  | byte => if 0x20 ≤ byte ∧ byte ≤ 0x7e then s.put byte else some s

def feedByte (s : Screen) (byte : UInt8) : Option Screen :=
  match s.parse with
  | .escape => { s with parse := .ground }.escape byte
  | .charset => some { s with parse := .ground }
  | .osc =>
    if byte = 0x07 then some { s with parse := .ground }
    else if byte = 0x1b then some { s with parse := .escape }
    else some s
  | .csi => s.sequence byte
  | .ground => s.ground byte

def feed (s : Screen) (bytes : List UInt8) : Option Screen :=
  bytes.foldl (fun s byte => s.bind fun s => s.feedByte byte) (some s)

end Screen

end AerOS.Terminal
