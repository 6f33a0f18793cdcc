import AerOS.Spec.Terminal
import Mathlib.Data.List.Range

namespace AerOS.Proof.Terminal
open AerOS.Terminal AerOS.Terminal.Screen Lib
open Option (bind_eq_bind bind_some)

variable {s : Screen} {x : Option Screen} {byte : UInt8} {count first row start stop dest : Nat}

structure Sound (s : Screen) : Prop extends Inside s where
  main : ∀ cells attrs row col, s.main = some (cells, attrs, row, col) → row < rows ∧ col < cols
  count : s.count ≤ maxParams
  slots : s.parse = .csi → s.count < maxParams
  replies : s.repliesLen ≤ replyRoom

def Good (x : Option Screen) : Prop := ∃ s, x = some s ∧ Sound s

def Drawn (s : Screen) (x : Option Screen) : Prop := ∃ cells attrs, x = some { s with cells, attrs }

theorem rows_pos : 0 < rows := by decide

theorem cols_pos : 0 < cols := by decide

theorem empty_sound : Sound empty :=
  ⟨⟨rows_pos, cols_pos, by decide, by decide, rows_pos, cols_pos⟩, nofun, by decide, nofun, by decide⟩

section
variable (sound : Sound s)
include sound

theorem Sound.set {row col : Nat} (hrow : row < rows) (hcol : col < cols) {cells attrs : Grid} {attr : UInt8}
    {wrapPending appCursor cursorVisible : Bool} :
    Sound { s with cells, attrs, attr, row, col, wrapPending, appCursor, cursorVisible } :=
  ⟨⟨hrow, hcol, sound.region, sound.bottom, sound.saved⟩, sound.main, sound.count, sound.slots, sound.replies⟩

theorem Sound.status {parse : Parse} {params : Nat → UInt16} {count repliesLen : Nat} {isPrivate : Bool}
    {replies : Nat → UInt8} (few : count ≤ maxParams) (slots : parse = .csi → count < maxParams)
    (room : repliesLen ≤ replyRoom) : Sound { s with parse, params, count, isPrivate, replies, repliesLen } :=
  ⟨⟨sound.row, sound.col, sound.region, sound.bottom, sound.saved⟩, sound.main, few, slots, room⟩

theorem Sound.region_set {top bottom : Nat} (region : top < bottom) (inside : bottom < rows) :
    Sound { s with top, bottom } :=
  ⟨⟨sound.row, sound.col, region, inside, sound.saved⟩, sound.main, sound.count, sound.slots, sound.replies⟩

theorem Sound.save : Sound { s with saved := (s.row, s.col) } :=
  ⟨⟨sound.row, sound.col, sound.region, sound.bottom, sound.row, sound.col⟩, sound.main, sound.count,
    sound.slots, sound.replies⟩

theorem Sound.good : Good (some s) := ⟨s, rfl, sound⟩

theorem Sound.moved {row col : Nat} (hrow : row < rows) (hcol : col < cols) (wrapPending : Bool) :
    Good (some { s with row, col, wrapPending }) :=
  (sound.set hrow hcol).good

theorem Sound.parsing (parse : Parse) (other : parse ≠ .csi) : Sound { s with parse } :=
  sound.status sound.count (fun same => absurd same other) sound.replies

theorem finish_sound : Sound s.finish := by
  unfold finish
  split
  · exact sound
  next _ _ _ _ main =>
    have inside := sound.main _ _ _ _ main
    exact ⟨⟨inside.1, inside.2, sound.region, sound.bottom, sound.saved⟩, nofun, sound.count, sound.slots,
      sound.replies⟩

theorem Drawn.good (drawn : Drawn s x) : Good x := by
  obtain ⟨_, _, rfl⟩ := drawn
  exact (sound.set sound.row sound.col).good

end

theorem blank_drawn (h : row < rows ∧ start ≤ stop ∧ stop ≤ cols) : Drawn s (s.blank row start stop) :=
  ⟨_, _, if_pos h⟩

theorem copyRows_drawn (h : start ≤ stop ∧ stop ≤ rows ∧ dest + (stop - start) ≤ rows) :
    Drawn s (s.copyRows start stop dest) := ⟨_, _, if_pos h⟩

theorem copyCells_drawn (h : row < rows ∧ start ≤ stop ∧ stop ≤ cols ∧ dest + (stop - start) ≤ cols) :
    Drawn s (s.copyCells row start stop dest) := ⟨_, _, if_pos h⟩

theorem Drawn.bind (drawn : Drawn s x) {f : Screen → Option Screen}
    (next : ∀ cells attrs, Drawn { s with cells, attrs } (f { s with cells, attrs })) : Drawn s (x.bind f) := by
  obtain ⟨cells, attrs, rfl⟩ := drawn
  exact next cells attrs

theorem blankRows_drawn (fits : stop ≤ rows) : Drawn s (s.blankRows start stop) := by
  have each : ∀ (list : List Nat) (s : Screen), (∀ row ∈ list, row < rows) →
      Drawn s (list.foldlM (fun s row => s.blank row 0 cols) s) := by
    intro list
    induction list with
    | nil => exact fun s _ => ⟨_, _, rfl⟩
    | cons row _ ih =>
      intro s inside
      apply (blank_drawn ⟨inside row (by simp), Nat.zero_le _, le_rfl⟩).bind
      exact fun _ _ => ih _ fun row mem => inside row (by simp [mem])
  apply each
  intro row mem
  have := List.mem_range'_1.mp mem
  omega

theorem checkedSub_some {a b : Nat} (le : b ≤ a) : checkedSub a b = some (a - b) := if_pos le

theorem checkedAdd_some {a b : Nat} (low : a < cols) (small : b < 2 ^ 16) : checkedAdd a b = some (a + b) := by
  refine if_pos ?_
  unfold cols at low
  omega

theorem scrollUp_drawn (region : s.top ≤ s.bottom) (fits : s.bottom < rows) (count : Nat) :
    Drawn s (s.scrollUp count) := by
  unfold scrollUp
  rw [checkedSub_some (by omega)]
  apply (copyRows_drawn ⟨by omega, fits, by omega⟩).bind
  intro _ _
  rw [checkedSub_some (by omega)]
  exact blankRows_drawn fits

theorem scrollDown_drawn (region : s.top ≤ s.bottom) (fits : s.bottom < rows)
    (short : min count (s.bottom + 1 - s.top) ≤ s.bottom) : Drawn s (s.scrollDown count) := by
  unfold scrollDown
  rw [checkedSub_some (by omega)]
  simp only [bind_eq_bind, bind_some]
  rw [checkedSub_some short]
  apply (copyRows_drawn ⟨by omega, by omega, by omega⟩).bind
  exact fun _ _ => blankRows_drawn (by omega)

theorem scrollDown_none (top : s.top = 0) (many : s.bottom < count) : s.scrollDown count = none := by
  unfold scrollDown
  rw [checkedSub_some (by omega)]
  have short : ¬ min count (s.bottom + 1 - s.top) ≤ s.bottom := by omega
  simp only [bind_eq_bind, bind_some, checkedSub, short, if_false, Option.bind_none]

section
variable (sound : Sound s)
include sound

theorem lineFeed_good : Good s.lineFeed := by
  unfold lineFeed
  split
  · exact (scrollUp_drawn sound.region.le sound.bottom 1).good sound
  split
  next below => exact sound.moved below sound.col _
  next => exact sound.good

theorem reverseIndex_good : Good s.reverseIndex := by
  have region := sound.region
  have inside := sound.row
  unfold reverseIndex
  split
  · exact (scrollDown_drawn region.le sound.bottom (by omega)).good sound
  · exact sound.moved (by omega) sound.col _

theorem write_good (byte : UInt8) : Good (s.write byte) := by
  have inside := sound.col
  unfold write
  dsimp only
  rw [draw, if_pos ⟨sound.row, inside⟩, Option.map_some]
  dsimp only
  split
  · exact (sound.set sound.row sound.col).good
  · exact (sound.set sound.row (by omega)).good

theorem put_good (byte : UInt8) : Good (s.put byte) := by
  unfold put
  split
  · obtain ⟨s', eq, sound'⟩ := lineFeed_good (s := { s with wrapPending := false, col := 0 })
      (sound.set sound.row cols_pos)
    rw [eq]
    exact write_good sound' byte
  · exact write_good sound byte

theorem reply_good (bytes : List UInt8) : Good (s.reply bytes) := by
  have room := sound.replies
  unfold reply
  rw [checkedSub_some room]
  exact (sound.status sound.count sound.slots (by omega)).good

theorem alternate_good (set : Bool) : Good (s.alternate set) := by
  have whole : ∀ {s : Screen}, Sound s → Good (some { s with top := 0, bottom := rows - 1 }) := fun sound =>
    (sound.region_set (by decide) (by decide)).good
  unfold alternate
  split
  · obtain ⟨cells, attrs, eq⟩ := @blankRows_drawn { s with main := some (s.cells, s.attrs, s.row, s.col) } 0 rows
      (Nat.le_refl rows)
    refine whole ⟨⟨rows_pos, cols_pos, sound.region, sound.bottom, sound.saved⟩, ?_, sound.count,
      sound.slots, sound.replies⟩
    rintro _ _ _ _ ⟨⟩
    exact ⟨sound.row, sound.col⟩
  · split
    · exact whole sound
    · exact whole (finish_sound sound)

theorem setMode_good (set : Bool) (mode : Nat) : Good (s.setMode set mode) := by
  unfold setMode
  split
  case h_1 | h_2 => exact (sound.set sound.row sound.col).good
  case h_3 | h_4 | h_5 => exact alternate_good sound set
  case h_6 => exact sound.good

end

variable {list : List Nat}

theorem setModes_good (sound : Sound s) (set : Bool) (few : ∀ index ∈ list, index < maxParams) :
    Good (s.setModes set list) := by
  induction list generalizing s with
  | nil => exact sound.good
  | cons index _ ih =>
    simp only [setModes, guard, few index (by simp), if_true]
    obtain ⟨s', eq, sound'⟩ := setMode_good sound set (s.params index).toNat
    rw [eq]
    exact ih sound' fun i mem => few i (by simp [mem])

theorem selectRendition_good (sound : Sound s) (few : ∀ index ∈ list, index < maxParams) :
    Good (s.selectRendition list) := by
  induction list generalizing s with
  | nil => exact sound.good
  | cons index _ ih =>
    simp only [selectRendition, guard, few index (by simp), if_true]
    split
    · exact sound.good
    · exact ih (sound.set sound.row sound.col) fun i mem => few i (by simp [mem])

theorem param_some (few : s.count ≤ maxParams) (index default : Nat) :
    ∃ value, s.param index default = some value ∧ (0 < default → 0 < value) ∧
      (index < s.count → value = if (s.params index).toNat = 0 then default else (s.params index).toNat) := by
  have inside : index < s.count → index < maxParams := fun _ => by omega
  rw [param, guard, if_pos inside]
  refine ⟨_, rfl, ?_, fun here => by rw [if_pos here]⟩
  generalize (if index < s.count then (s.params index).toNat else 0) = value
  split <;> omega

theorem positionReply_some (row col : Nat) : ∃ answer, positionReply row col = some answer := by
  unfold positionReply digits
  by_cases twoRow : row ≥ 10 <;> by_cases twoCol : col ≥ 10 <;> simp only [twoRow, twoCol, if_true, if_false] <;>
    exact ⟨_, rfl⟩

theorem control_good (sound : Sound s) (positive : 0 < first) (small : first < 2 ^ 16)
    (scrolls : byte = 84 → ¬ (s.top = 0 ∧ s.bottom < first))
    (inserts : byte = 76 → ¬ (s.top = 0 ∧ s.row = 0 ∧ s.bottom < first)) : Good (s.control first byte) := by
  have rowsPos := rows_pos
  have colsPos := cols_pos
  have inside := sound.row
  have within := sound.col
  have region := sound.region
  have bottom := sound.bottom
  obtain ⟨_, isMode, -, -⟩ := param_some sound.count 0 0
  obtain ⟨value, isFirst, more, -⟩ := param_some sound.count 0 1
  obtain ⟨_, isSecond, more', -⟩ := param_some sound.count 1 1
  obtain ⟨last, isLast, _, -⟩ := param_some sound.count 1 rows
  have down := @checkedAdd_some s.row first (by unfold rows at inside; unfold cols; omega) small
  unfold Screen.control
  split
  case h_1 | h_4 | h_6 => exact sound.moved (by omega) (by omega) _
  case h_2 | h_5 =>
    rw [down]
    exact sound.moved (by omega) (by omega) _
  case h_3 =>
    rw [checkedAdd_some within small]
    exact sound.moved inside (by omega) _
  case h_7 | h_8 | h_9 =>
    rw [checkedSub_some positive]
    exact sound.moved (by omega) (by omega) _
  case h_10 | h_11 =>
    rw [checkedSub_some positive, isSecond]
    simp only [bind_eq_bind, bind_some]
    rw [checkedSub_some (more' Nat.one_pos)]
    exact sound.moved (by omega) (by omega) _
  case h_12 =>
    rw [isMode]
    simp only [bind_eq_bind, bind_some]
    split
    · refine ((blank_drawn ⟨inside, within.le, le_rfl⟩).bind fun cells attrs => ?_).good sound
      exact blankRows_drawn le_rfl
    · refine ((blankRows_drawn inside.le).bind fun cells attrs => ?_).good sound
      exact blank_drawn ⟨inside, Nat.zero_le _, within⟩
    · exact (blankRows_drawn le_rfl).good sound
  case h_13 =>
    rw [isMode]
    simp only [bind_eq_bind, bind_some]
    split
    · exact (blank_drawn ⟨inside, within.le, le_rfl⟩).good sound
    · exact (blank_drawn ⟨inside, Nat.zero_le _, within⟩).good sound
    · exact (blank_drawn ⟨inside, Nat.zero_le _, le_rfl⟩).good sound
  case h_14 =>
    refine selectRendition_good sound fun _ mem => ?_
    have bound := List.mem_range.mp mem
    have few := sound.count
    unfold maxParams at few ⊢
    omega
  case h_15 =>
    split
    next here =>
      have whole := inserts rfl
      obtain ⟨cells, attrs, eq⟩ := @scrollDown_drawn { s with top := s.row } first here.2 bottom (by dsimp only; omega)
      rw [eq]
      exact (sound.set inside colsPos).good
    next => exact sound.good
  case h_16 =>
    split
    next here =>
      obtain ⟨cells, attrs, eq⟩ := @scrollUp_drawn { s with top := s.row } here.2 bottom first
      rw [eq]
      exact (sound.set inside colsPos).good
    next => exact sound.good
  case h_17 =>
    rw [checkedSub_some within.le]
    refine ((copyCells_drawn ⟨inside, by omega, le_rfl, by omega⟩).bind fun cells attrs => ?_).good sound
    rw [checkedSub_some (by omega)]
    exact blank_drawn ⟨inside, by omega, le_rfl⟩
  case h_18 =>
    rw [checkedSub_some within.le]
    simp only [bind_eq_bind, bind_some]
    rw [checkedSub_some (by omega)]
    refine ((copyCells_drawn ⟨inside, by omega, by omega, by omega⟩).bind fun cells attrs => ?_).good sound
    exact blank_drawn ⟨inside, by omega, by omega⟩
  case h_19 =>
    rw [checkedAdd_some within small]
    exact (blank_drawn ⟨inside, by omega, by omega⟩).good sound
  case h_20 => exact (scrollUp_drawn region.le bottom first).good sound
  case h_21 =>
    have whole := scrolls rfl
    exact (scrollDown_drawn region.le bottom (by omega)).good sound
  case h_22 =>
    rw [isFirst]
    simp only [bind_eq_bind, bind_some]
    rw [checkedSub_some (more Nat.one_pos), isLast]
    simp only [bind_some]
    rw [checkedSub_some (by omega)]
    change Good (some (if value - 1 < min last rows - 1 then _ else _))
    split
    next less => exact ((sound.set rowsPos colsPos).region_set less (by omega)).good
    next => exact sound.good
  case h_23 => exact sound.save.good
  case h_24 => exact sound.moved sound.saved.1 sound.saved.2 _
  case h_25 =>
    rw [isMode]
    simp only [bind_eq_bind, bind_some]
    split
    · exact reply_good sound _
    · obtain ⟨_, eq⟩ := positionReply_some (s.row + 1) (s.col + 1)
      rw [eq]
      exact reply_good sound _
    · exact sound.good
  case h_26 => exact reply_good sound _
  case h_27 => exact sound.good

section
variable (sound : Sound s) (parse : s.parse = .csi)
include sound parse

theorem ending_sound : Sound { s with parse := .ground, count := s.count + 1 } ∧
    ({ s with parse := .ground, count := s.count + 1 } : Screen).param 0 1 =
      some (if (s.params 0).toNat = 0 then 1 else (s.params 0).toNat) := by
  have past : Parse.ground = .csi → s.count + 1 < maxParams := nofun
  have after : Sound { s with parse := .ground, count := s.count + 1 } :=
    sound.status (sound.slots parse) past sound.replies
  exact ⟨after, rfl⟩

theorem csi_good (spared : ¬ Overruns s byte) :
    Good ({ s with parse := .ground, count := s.count + 1 }.csi byte) := by
  obtain ⟨after, isFirst⟩ := ending_sound sound parse
  have quiet : Sound { s with parse := .ground, count := s.count + 1, wrapPending := false } :=
    after.set after.row after.col
  have region := sound.region
  have small := (s.params 0).toNat_lt
  unfold csi
  rw [isFirst]
  change Good (if s.isPrivate = true then _ else _)
  split
  next =>
    have few : ∀ index ∈ List.range (s.count + 1), index < maxParams := fun index mem =>
      (List.mem_range.mp mem).trans_le after.count
    split
    · exact setModes_good quiet true few
    · exact setModes_good quiet false few
    · exact quiet.good
  next plain =>
    have overruns := fun top count last => spared ⟨parse, Bool.eq_false_iff.mpr plain, top, count, last⟩
    apply control_good quiet
    · split <;> omega
    · split <;> omega
    · rintro isT ⟨top, count⟩
      refine overruns top ?_ (.inl isT)
      change s.bottom < _ at count
      split at count <;> omega
    rintro isL ⟨top, row, count⟩
    refine overruns top ?_ (.inr ⟨isL, row⟩)
    change s.bottom < _ at count
    split at count <;> omega

theorem sequence_good (spared : ¬ Overruns s byte) : Good (s.sequence byte) := by
  have few := sound.slots parse
  unfold Screen.sequence
  split
  · have slot : min s.count (maxParams - 1) < maxParams := by omega
    simp only [guard, if_pos slot]
    exact (sound.status sound.count sound.slots sound.replies).good
  split
  · have least : min (s.count + 1) (maxParams - 1) < maxParams := by omega
    exact (sound.status least.le (fun _ => least) sound.replies).good
  split
  · exact (sound.status sound.count sound.slots sound.replies).good
  split
  · exact csi_good sound parse spared
  · exact sound.good

end

theorem overruns_none (sound : Sound s) (past : Overruns s byte) : s.feedByte byte = none := by
  have count := past.count
  have isFirst := (ending_sound sound past.parse).2
  rw [if_neg (by omega)] at isFirst
  have ends : s.feedByte byte = { s with parse := .ground, count := s.count + 1 }.csi byte := by
    rw [feedByte, past.parse]
    rcases past.last with rfl | ⟨rfl, -⟩ <;> rfl
  rw [ends, csi, isFirst]
  change (if s.isPrivate = true then _ else _) = none
  rw [if_neg (by simp [past.plain])]
  rcases past.last with rfl | ⟨rfl, row⟩
  · exact scrollDown_none past.top count
  change (if s.top ≤ s.row ∧ s.row ≤ s.bottom then Option.map _ _ else _) = none
  rw [if_pos (by rw [past.top, row]; omega)]
  exact Option.map_eq_none_iff.mpr (scrollDown_none row count)

section
variable (sound : Sound s)
include sound

theorem escape_good (byte : UInt8) : Good (s.escape byte) := by
  unfold escape
  split
  case h_1 =>
    exact (sound.status (Nat.zero_le _) (fun _ => by decide) sound.replies).good
  case h_2 => exact (sound.parsing .osc nofun).good
  case h_3 | h_4 | h_5 | h_6 | h_7 => exact (sound.parsing .charset nofun).good
  case h_8 => exact sound.save.good
  case h_9 => exact sound.moved sound.saved.1 sound.saved.2 _
  case h_10 => exact lineFeed_good sound
  case h_11 => exact lineFeed_good (sound.set sound.row cols_pos)
  case h_12 => exact reverseIndex_good sound
  case h_13 => exact empty_sound.good
  case h_14 => exact sound.good

theorem ground_good (byte : UInt8) : Good (s.ground byte) := by
  have within := sound.col
  unfold ground
  split
  case h_1 => exact (sound.parsing .escape nofun).good
  case h_2 => exact sound.moved sound.row cols_pos _
  case h_3 | h_4 | h_5 =>
    refine lineFeed_good (sound.set sound.row ?_)
    split
    · exact cols_pos
    · exact within
  case h_6 | h_7 => exact sound.moved sound.row (by omega) _
  case h_8 =>
    split
    · exact put_good sound _
    · exact sound.good

theorem feedByte_good (spared : ¬ Overruns s byte) : Good (s.feedByte byte) := by
  unfold feedByte
  split
  case h_1 => exact escape_good (sound.parsing .ground nofun) _
  case h_2 => exact (sound.parsing .ground nofun).good
  case h_3 =>
    split
    · exact (sound.parsing .ground nofun).good
    split
    · exact (sound.parsing .escape nofun).good
    · exact sound.good
  case h_4 parse => exact sequence_good sound parse spared
  case h_5 => exact ground_good sound byte

end

variable {event : Event}

theorem step_good (good : Good x) (spared : Spared x event) : Good (step x event) := by
  obtain ⟨s, rfl, sound⟩ := good
  cases event with
  | byte byte => exact feedByte_good sound (spared s byte rfl rfl)
  | takeReplies room =>
    have few := sound.replies
    change Good ((s.takeReplies room).map Prod.snd)
    rw [takeReplies, guard, if_pos (by omega)]
    exact (sound.status sound.count sound.slots (Nat.zero_le _)).good
  | finish => exact (finish_sound sound).good

theorem step_lost (good : Good x) (overruns : ¬ Spared x event) : ¬ Alive (step x event) := by
  obtain ⟨s, rfl, sound⟩ := good
  simp only [Spared, not_forall, not_not] at overruns
  obtain ⟨_, byte, ⟨⟩, rfl, past⟩ := overruns
  have none : step (some s) (.byte byte) = none := overruns_none sound past
  rw [none]
  rintro ⟨_, ⟨⟩, -⟩

theorem screen_survives (start : Screen) (starts : start = empty ∨ ∃ lines, start = load lines) (events : List Event) :
    (Run.Throughout step Alive (some start) events ↔ Run.Along step Spared (some start) events) ∧
      ∀ s bytes, Screen.feed s bytes = Run.final step (some s) (bytes.map Event.byte) := by
  have sound : Sound start := by
    rcases starts with rfl | ⟨lines, rfl⟩
    · exact empty_sound
    have rowsPos := rows_pos
    exact empty_sound.set (show min lines.length (rows - 1) < rows by omega) cols_pos
  constructor
  · refine Run.throughout_iff_along_of_inv ?_ (fun _ _ => step_good) (fun _ _ => step_lost) events sound.good
    rintro _ ⟨s, rfl, sound⟩
    exact ⟨s, rfl, sound.toInside⟩
  intro s bytes
  rw [Run.final, List.foldl_map]
  rfl

/-- `ESC [ 9 9 T` on an empty screen. -/
theorem scrollAll_panics : Screen.feed empty [0x1b, 91, 57, 57, 84] = none := by decide

/-- `ESC [ T`, which scrolls by one row. -/
def scrollOne : List Event := [.byte 0x1b, .byte 91, .byte 84]

theorem scrollOne_survives : Run.Throughout step Alive (some empty) scrollOne := by
  refine (screen_survives empty (.inl rfl) scrollOne).1.mpr ⟨?_, ?_, ?_, trivial⟩
  · rintro _ _ ⟨⟩ - past
    cases past.parse
  · rintro _ _ ⟨⟩ - past
    cases past.parse
  · rintro _ _ ⟨⟩ - past
    exact absurd past.count (by decide)

end AerOS.Proof.Terminal
