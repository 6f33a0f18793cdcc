import Mathlib.Tactic.Linarith
import AerOS.Spec.Streams

namespace AerOS.Proof.Streams
open AerOS.Ring List

variable {size head length offset room count : Nat} {data : Data} {source : List UInt8}
variable {i start : Nat}

def contents (size : Nat) (data : Data) (head length : Nat) : List UInt8 :=
  (List.range length).map fun i => data ((head + i) % size)

structure Fits (size head length : Nat) : Prop where
  head : head < size
  length : length ≤ size

@[simp] theorem contents_length : (contents size data head length).length = length := by simp [contents]

theorem contents_getElem (h : i < (contents size data head length).length) :
    (contents size data head length)[i] = data ((head + i) % size) := by simp [contents]

theorem mod_once (h : i < 2 * size) : i % size = if i < size then i else i - size := by
  split
  · next inside => exact Nat.mod_eq_of_lt inside
  next _ =>
  rw [Nat.mod_eq_sub_mod (by omega)]
  exact Nat.mod_eq_of_lt (by omega)

theorem copyOut_getElem (h : i < (copyOut data start count).length) :
    (copyOut data start count)[i] = data (start + i) := by simp [copyOut]

@[simp] theorem copyOut_length : (copyOut data start count).length = count := by simp [copyOut]

theorem ringPeek_eq (fits : Fits size head length) :
    ringPeek size data head length offset room = ((contents size data head length).drop offset).take room := by
  obtain ⟨_, _⟩ := fits
  unfold ringPeek
  apply ext_getElem
  · simp only [length_append, copyOut_length, length_take, length_drop, contents_length]
    omega
  intro i h₁ h₂
  simp only [length_take, length_drop, contents_length] at h₂
  rw [getElem_append, getElem_take, getElem_drop, contents_getElem]
  have start := mod_once (show head + offset < 2 * size by omega)
  have index := mod_once (show head + (offset + i) < 2 * size by omega)
  simp only [copyOut_length]
  split
  all_goals next half =>
    rw [copyOut_getElem]
    congr 1
    rw [index]
    rw [start] at half ⊢
    split_ifs at half ⊢ <;> omega

theorem copyIn_inside (h : start ≤ i) (h' : i < start + source.length) :
    copyIn data start source i = source.getD (i - start) 0 := if_pos ⟨h, h'⟩

theorem copyIn_outside (h : ¬ (start ≤ i ∧ i < start + source.length)) : copyIn data start source i = data i :=
  if_neg h

theorem contents_ringPut (data : Data) (source : List UInt8) (fits : Fits size head length) :
    contents size (ringPut size data head length source).2.1 head (ringPut size data head length source).2.2 =
      contents size data head length ++ source.take (ringPut size data head length source).1 := by
  obtain ⟨_, _⟩ := fits
  unfold ringPut
  set count := min source.length (size - length) with isCount
  have tail := mod_once (show head + length < 2 * size by omega)
  set start := (head + length) % size
  set first := min count (size - start) with isFirst
  have firstLength : (source.take first).length = first := by
    rw [length_take]
    omega
  have restLength : ((source.take count).drop first).length = count - first := by
    rw [length_drop, length_take]
    omega
  apply ext_getElem
  · simp only [contents_length, length_append, length_take]
    omega
  intro i h₁ h₂
  rw [contents_getElem, getElem_append]
  simp only [contents_length] at h₁ ⊢
  have index := mod_once (show head + i < 2 * size by omega)
  by_cases old : i < length
  · -- the queued bytes are not where the new ones go
    rw [dif_pos old, contents_getElem, copyIn_outside, copyIn_outside]
    · rw [firstLength, index]
      split_ifs at tail ⊢ <;> omega
    rw [restLength, index]
    split_ifs at tail ⊢ <;> omega
  rw [dif_neg old, getElem_take]
  have new : source[i - length]? = some (source[i - length]) := getElem?_eq_getElem _
  by_cases inFirst : i - length < first
  · rw [copyIn_outside, copyIn_inside]
    · have place : (head + i) % size - start = i - length := by
        rw [index]
        split_ifs at tail ⊢ <;> omega
      rw [place, getD_eq_getElem?_getD, getElem?_take, if_pos inFirst, new, Option.getD_some]
    · rw [index]
      split_ifs at tail ⊢ <;> omega
    · rw [firstLength, index]
      split_ifs at tail ⊢ <;> omega
    · rw [restLength, index]
      split_ifs at tail ⊢ <;> omega
  · rw [copyIn_inside (Nat.zero_le _)]
    · have place : first + ((head + i) % size - 0) = i - length := by
        rw [index]
        split_ifs at tail ⊢ <;> omega
      rw [getD_eq_getElem?_getD, getElem?_drop, place, getElem?_take, if_pos (by omega), new, Option.getD_some]
    · rw [restLength, index]
      split_ifs at tail ⊢ <;> omega

theorem fits_ringPut (data : Data) (source : List UInt8) (fits : Fits size head length) :
    Fits size head (ringPut size data head length source).2.2 :=
  ⟨fits.head, by have := fits.length; simp only [ringPut]; omega⟩

theorem contents_advance :
    contents size data ((head + count) % size) (length - count) = (contents size data head length).drop count := by
  apply ext_getElem
  · simp
  intro i h₁ h₂
  rw [contents_getElem, getElem_drop, contents_getElem, Nat.mod_add_mod, Nat.add_assoc]

theorem fits_advance (fits : Fits size head length) : Fits size ((head + count) % size) (length - count) :=
  ⟨Nat.mod_lt _ (by have := fits.head; omega), by have := fits.length; omega⟩

theorem ringTake_eq (data : Data) (room : Nat) (fits : Fits size head length) :
    (ringTake size data head length room).1 = (contents size data head length).take room ∧
      contents size data (ringTake size data head length room).2.1 (ringTake size data head length room).2.2 =
        (contents size data head length).drop room ∧
      Fits size (ringTake size data head length room).2.1 (ringTake size data head length room).2.2 := by
  have taken : (ringTake size data head length room).1 = (contents size data head length).take room := by
    unfold ringTake
    rw [ringPeek_eq fits, drop_zero]
  refine ⟨taken, ?_, ?_⟩
  · unfold ringTake at taken ⊢
    dsimp only at taken ⊢
    rw [taken, length_take, contents_length, contents_advance]
    rcases Nat.le_total room length with h | h
    · rw [Nat.min_eq_left h]
    · rw [Nat.min_eq_right h, drop_of_length_le (by simp), drop_of_length_le (by simpa using h)]
  · exact fits_advance fits

theorem ringTake_split (fits : Fits size head length) :
    contents size data head length = (ringTake size data head length room).1 ++
      contents size data (ringTake size data head length room).2.1 (ringTake size data head length room).2.2 := by
  obtain ⟨taken, left, -⟩ := ringTake_eq data room fits
  rw [taken, left, take_append_drop]

open AerOS.Descriptors AerOS.Streams Lib.Run
variable {σ : Type}

structure Lawful (m : Medium σ) (ok : σ → Prop) (queued : σ → List UInt8) : Prop where
  take : ∀ {s} room, ok s →
    (∃ bytes s', m.take s room = (.done (.ok bytes), s') ∧ ok s' ∧ queued s = bytes ++ queued s') ∨
      ∃ turn, m.take s room = (turn, s) ∧ ∀ bytes, turn ≠ .done (.ok bytes)
  put : ∀ {s} source, ok s →
    (∃ count s', m.put s source = (.done (.ok count), s') ∧ ok s' ∧ queued s' = queued s ++ source.take count ∧
        (source.length ≤ pipeAtomicBytes → count = source.length)) ∨
      ∃ turn, m.put s source = (turn, s) ∧ ∀ count, turn ≠ .done (.ok count)
  shut : ∀ {s} reader, ok s → ok (m.shut s reader) ∧ queued (m.shut s reader) = queued s

theorem ringPut_whole {size head length : Nat} {data : Data} {source : List UInt8} (short : source.length ≤ size - length) :
    (ringPut size data head length source).1 = source.length := Nat.min_eq_left short

def PipeOk (s : Pipe × Data) : Prop := Fits pipeBufferBytes s.1.head s.1.length ∧ s.1.onlcr = false

def pipeQueued (s : Pipe × Data) : List UInt8 := contents pipeBufferBytes s.2 s.1.head s.1.length

theorem pipe_lawful : Lawful pipeMedium PipeOk pipeQueued := by
  refine ⟨?take, ?put, ?shut⟩
  case take =>
    rintro ⟨pipe, ring⟩ room ⟨fits, plain⟩
    dsimp only [pipeMedium, pipeRead]
    split
    · exact .inr ⟨_, rfl, by simp⟩
    split
    · obtain ⟨-, -, fits'⟩ := ringTake_eq ring (pipe.wanted ring room) fits
      exact .inl ⟨_, _, rfl, ⟨fits', plain⟩, ringTake_split fits⟩
    split
    · exact .inl ⟨[], _, rfl, ⟨fits, plain⟩, rfl⟩
    split
    · exact .inl ⟨[], _, rfl, ⟨fits, plain⟩, rfl⟩
    · exact .inr ⟨_, rfl, by simp⟩
  case put =>
    rintro ⟨pipe, ring⟩ source ⟨fits, plain⟩
    dsimp only at plain
    dsimp only [pipeMedium, pipeWrite]
    split
    · exact .inr ⟨_, rfl, by simp⟩
    by_cases empty : source = []
    · rw [if_pos empty, empty]
      exact .inl ⟨0, _, rfl, ⟨fits, plain⟩, by simp, fun _ => rfl⟩
    rw [if_neg empty]
    simp only [plain, Bool.false_eq_true, if_false]
    split
    · next room =>
      refine .inl ⟨_, _, rfl, ⟨fits_ringPut ring source fits, rfl⟩, contents_ringPut _ _ fits, fun _ => ringPut_whole ?_⟩
      exact room.2.resolve_left (by omega)
    · exact .inr ⟨_, rfl, by simp⟩
  case shut =>
    intro s _ ok
    unfold pipeMedium
    dsimp only
    split_ifs <;> exact ⟨ok, rfl⟩

def DirectionOk (d : Direction) : Prop := Fits pipeBufferBytes d.head d.length ∧ d.message = false

def directionQueued (d : Direction) : List UInt8 := contents pipeBufferBytes d.ring d.head d.length

theorem unix_lawful : Lawful unixMedium DirectionOk directionQueued := by
  refine ⟨?take, ?put, ?shut⟩
  case take =>
    rintro d room ⟨fits, plain⟩
    dsimp only [unixMedium, unixSocketTake]
    split
    · exact .inr ⟨_, rfl, by simp⟩
    by_cases some : 0 < d.length
    · rw [if_pos some, if_neg (by simp [plain])]
      obtain ⟨-, -, fits'⟩ := ringTake_eq d.ring room fits
      exact .inl ⟨_, _, rfl, ⟨fits', plain⟩, ringTake_split fits⟩
    rw [if_neg some]
    split
    · exact .inl ⟨[], _, rfl, ⟨fits, plain⟩, rfl⟩
    · exact .inr ⟨_, rfl, by simp⟩
  case put =>
    rintro d source ⟨fits, plain⟩
    dsimp only [unixMedium, unixSocketWrite]
    split
    · exact .inr ⟨_, rfl, by simp⟩
    by_cases empty : source = []
    · rw [if_pos empty, empty]
      exact .inl ⟨0, _, rfl, ⟨fits, plain⟩, by simp, fun _ => rfl⟩
    rw [if_neg empty, if_neg (by simp [plain])]
    split
    · next room =>
      refine .inl ⟨_, _, rfl, ⟨fits_ringPut d.ring source fits, plain⟩, contents_ringPut _ _ fits, fun _ => ringPut_whole ?_⟩
      exact room.2.resolve_left (by omega)
    · exact .inr ⟨_, rfl, by simp⟩
  case shut =>
    intro s _ ok
    unfold unixMedium
    dsimp only
    split_ifs <;> exact ⟨ok, rfl⟩

variable {m : Medium σ} {ok : σ → Prop} {queued : σ → List UInt8} {s : State σ} {log : List Event} {c : Call}
variable {bytes : List UInt8} {medium : σ}

theorem pieces_append (log new : List Event) (i : Nat) : pieces (log ++ new) i = pieces log i ++ pieces new i :=
  filterMap_append

theorem taken_append (log new : List Event) : taken (log ++ new) = taken log ++ taken new := flatMap_append

theorem entered_append (log new : List Event) : entered (log ++ new) = entered log ++ entered new := flatMap_append

@[simp] theorem pieces_took {j : Nat} : pieces [.took i bytes] j = if i = j then [bytes] else [] := by
  unfold pieces Event.piece
  split <;> simp_all

@[simp] theorem pieces_put {j : Nat} : pieces [.put i bytes] j = if i = j then [bytes] else [] := by
  unfold pieces Event.piece
  split <;> simp_all

@[simp] theorem taken_took : taken [.took i bytes] = bytes := by simp [taken, Event.taken]
@[simp] theorem taken_put : taken [.put i bytes] = [] := by simp [taken, Event.taken]
@[simp] theorem entered_took : entered [.took i bytes] = [] := by simp [entered, Event.entered]
@[simp] theorem entered_put : entered [.put i bytes] = bytes := by simp [entered, Event.entered]

structure Writing (c : Call) (source : List UInt8) : Prop where
  more : c.moved.length < c.chunkEnd
  inside : c.chunkEnd ≤ source.length
  short : c.chunkEnd ≤ c.moved.length + ioChunk
  last : source.length ≤ pipeAtomicBytes → c.chunkEnd = source.length

structure CallOk (log : List Event) (i : Nat) (c : Call) : Prop where
  moved : (pieces log i).flatten = c.moved
  answer : ∀ result, c.result = some result → result = .ok c.moved.length ∨ c.moved = [] ∧ ∃ failure, result = .error failure
  source : ∀ source nonblocking, c.request = .write source nonblocking → c.moved <+: source ∧
    (c.result = none → Writing c source) ∧
    (source.length ≤ pipeAtomicBytes → pieces log i = [] ∨ pieces log i = [source])

theorem CallOk.of_pieces {log' : List Event} (callOk : CallOk log i c) (same : pieces log' i = pieces log i) : CallOk log' i c := by
  obtain ⟨moved, answer, source⟩ := callOk
  refine ⟨by rw [same, moved], answer, ?_⟩
  rw [same]
  exact source

theorem callOk_begin (request : Request) (none : pieces log i = []) : CallOk log i (Call.begin request) := by
  cases request with
  | read _ =>
    refine ⟨by rw [none]; rfl, fun result h => ?_, fun source nonblocking h => by cases h⟩
    simp only [Call.begin] at h
    split at h
    · exact .inl (Option.some.inj h).symm
    · cases h
  | write source nonblocking =>
    refine ⟨by rw [none]; rfl, fun result h => ?_, fun _ _ h => ?_⟩
    · simp only [Call.begin] at h
      split at h
      · exact .inl (Option.some.inj h).symm
      · cases h
    obtain ⟨rfl, rfl⟩ := Request.write.inj h
    refine ⟨ nil_prefix, fun running => ?_, fun _ => .inl none⟩
    simp only [Call.begin] at running
    split at running
    · cases running
    next some =>
    refine ⟨?_, ?_, ?_, ?_⟩ <;> simp only [Call.begin, maxIo, ioChunk, pipeAtomicBytes, length_nil] at some ⊢ <;> omega

theorem CallOk.fail (callOk : CallOk log i c) (failure : Nat) : CallOk log i (c.fail failure) := by
  refine ⟨callOk.moved, fun _ h => ?_, fun source nonblocking h => ?_⟩
  · obtain rfl := Option.some.inj h
    by_cases empty : c.moved = []
    · exact .inr ⟨empty, failure, by rw [if_pos empty]⟩
    · exact .inl (by rw [if_neg empty]; rfl)
  · obtain ⟨before, -, whole⟩ := callOk.source source nonblocking h
    exact ⟨before, fun running => absurd running (by simp [Call.fail]), whole⟩

theorem CallOk.afterRead (callOk : CallOk log i c) {asked : Nat} (isRead : c.request = .read asked) (running : c.result = none)
    (requested amount : Nat) (bytes : List UInt8) :
    CallOk (log ++ [.took i bytes]) i (c.afterRead requested amount (.done (.ok bytes))) := by
  have moved : (pieces (log ++ [.took i bytes]) i).flatten = c.moved ++ bytes := by
    rw [pieces_append, pieces_took, if_pos rfl, flatten_append, callOk.moved]
    simp
  unfold Call.afterRead
  dsimp only
  split
  · refine ⟨moved, fun result h => .inl (Option.some.inj h).symm, fun source nonblocking h => ?_⟩
    cases isRead.symm.trans h
  refine ⟨moved, fun result h => ?_, fun source nonblocking h => ?_⟩
  · cases running.symm.trans h
  · cases isRead.symm.trans h

theorem part_length (writing : Writing c source) : (c.part source).length = c.chunkEnd - c.moved.length := by
  have := writing.inside
  simp only [Call.part, length_drop, length_take]
  omega

theorem moved_append_part (before : c.moved <+: source) (writing : Writing c source) :
    c.moved ++ c.part source = source.take c.chunkEnd := by
  have more := writing.more
  obtain ⟨_, rfl⟩ := before
  unfold Call.part
  rw [take_append, take_of_length_le (by omega), drop_left]

theorem CallOk.afterWrite (callOk : CallOk log i c) {nonblocking : Bool}
    (isWrite : c.request = .write source nonblocking) (running : c.result = none) :
    CallOk (log ++ [.put i (c.part source)]) i (c.afterWrite source nonblocking (.done (.ok (c.part source).length))) := by
  obtain ⟨before, writing, whole⟩ := callOk.source source nonblocking isWrite
  have writing := writing running
  have length := part_length writing
  have chunk := moved_append_part before writing
  have more := writing.more
  have inside := writing.inside
  have moved : (pieces (log ++ [.put i (c.part source)]) i).flatten = source.take c.chunkEnd := by
    rw [pieces_append, pieces_put, if_pos rfl, flatten_append, callOk.moved, ← chunk]
    simp
  -- a short source is one chunk
  have short : source.length ≤ pipeAtomicBytes →
      pieces (log ++ [.put i (c.part source)]) i = [] ∨ pieces (log ++ [.put i (c.part source)]) i = [source] := by
    intro few
    have all := writing.last few
    have none : pieces log i = [] := by
      refine (whole few).resolve_right fun one => ?_
      have same : source = c.moved := by
        rw [← callOk.moved, one]
        simp
      rw [← same] at more
      omega
    have empty : c.moved = [] := by
      rw [← callOk.moved, none]
      rfl
    refine .inr ?_
    rw [pieces_append, none, pieces_put, if_pos rfl]
    unfold Call.part
    rw [empty, all]
    simp
  obtain ⟨count, isCount⟩ : ∃ count, (c.part source).length = count + 1 := ⟨c.chunkEnd - c.moved.length - 1, by omega⟩
  unfold Call.afterWrite
  rw [isCount]
  dsimp only
  rw [← isCount, take_length, chunk]
  have taken : (source.take c.chunkEnd).length = c.chunkEnd := by
    rw [length_take]
    omega
  rw [taken, if_neg (Nat.lt_irrefl _)]
  split
  · next _ =>
    refine ⟨moved, fun result h => ?_, fun source' nonblocking' h => ?_⟩
    · cases running.symm.trans h
    obtain ⟨rfl, rfl⟩ := Request.write.inj (isWrite.symm.trans h)
    refine ⟨ take_prefix _ _, fun _ => ?_, short⟩
    refine ⟨?_, ?_, ?_, fun few => ?_⟩ <;> dsimp only
    · simp only [ioChunk]
      omega
    · omega
    · omega
    · have all := writing.last few
      omega
  · refine ⟨moved, fun result h => .inl (Option.some.inj h).symm, fun source' nonblocking' h => ?_⟩
    obtain ⟨rfl, rfl⟩ := Request.write.inj (isWrite.symm.trans h)
    exact ⟨ take_prefix _ _, fun ended => by simp [Call.finish] at ended, short⟩

structure StreamInv (ok : σ → Prop) (queued : σ → List UInt8) (s : State σ) : Prop where
  medium : ok s.medium
  queue : entered s.log = taken s.log ++ queued s.medium
  calls : ∀ (i : Nat) c, s.calls[i]? = some c → CallOk s.log i c
  known : ∀ i, s.calls.length ≤ i → pieces s.log i = []

theorem StreamInv.set (inv : StreamInv ok queued s) (inside : i < s.calls.length) (new : List Event) {c' : Call}
    (mediumOk : ok medium) (queue : queued s.medium ++ entered new = taken new ++ queued medium)
    (callOk : CallOk (s.log ++ new) i c') (own : ∀ j, j ≠ i → pieces new j = []) :
    StreamInv ok queued { medium, calls := s.calls.set i c', log := s.log ++ new } := by
  refine ⟨mediumOk, ?_, fun j c found => ?_, fun j outside => ?_⟩
  · rw [entered_append, taken_append, inv.queue, append_assoc, queue, append_assoc]
  · by_cases at_ : j = i
    · subst at_
      rw [getElem?_set_self inside] at found
      obtain rfl := Option.some.inj found
      exact callOk
    · rw [getElem?_set_ne (Ne.symm at_)] at found
      refine (inv.calls j c found).of_pieces ?_
      rw [pieces_append, own j at_, append_nil]
  · rw [length_set] at outside
    rw [pieces_append, inv.known j outside, own j (by omega)]
    rfl

theorem StreamInv.set_call (inv : StreamInv ok queued s) (inside : i < s.calls.length) {c' : Call} (callOk : CallOk s.log i c') :
    StreamInv ok queued { s with calls := s.calls.set i c' } := by
  have kept := inv.set inside [] inv.medium (by simp [entered, taken]) (by rwa [append_nil]) (fun _ _ => rfl)
  rwa [append_nil] at kept

@[simp] theorem deliver_true (turn : Turn (List UInt8)) : Call.deliver true turn = turn := by
  unfold Call.deliver
  split <;> rfl

theorem StreamInv.attempt (lawful : Lawful m ok queued) (inv : StreamInv ok queued s) (found : s.calls[i]? = some c)
    (running : c.result = none) : StreamInv ok queued (s.attempt m i c true) := by
  have inside : i < s.calls.length := (List.getElem?_eq_some_iff.mp found).1
  have callOk := inv.calls i c found
  cases request : c.request with
  | read asked =>
    rcases lawful.take (min (min asked maxIo - c.moved.length) ioChunk) inv.medium with
      ⟨bytes, medium, after, mediumOk, queue⟩ | ⟨turn, after, other⟩
    · simp only [State.attempt, request, after, deliver_true]
      refine inv.set inside _ mediumOk ?_ (callOk.afterRead request running _ _ bytes) fun j apart => ?_
      · simpa using queue
      · rw [pieces_took, if_neg (Ne.symm apart)]
    simp only [State.attempt, request, after, deliver_true]
    cases turn with
    | again => exact inv.set_call inside callOk
    | done result =>
      cases result with
      | ok bytes => exact absurd rfl (other bytes)
      | error failure => exact inv.set_call inside (callOk.fail failure)
  | write source nonblocking =>
    obtain ⟨-, writing, -⟩ := callOk.source source nonblocking request
    have short : (c.part source).length ≤ pipeAtomicBytes := by
      have := (writing running).short
      rw [part_length (writing running)]
      simp only [ioChunk, pipeAtomicBytes] at this ⊢
      omega
    rcases lawful.put (c.part source) inv.medium with ⟨count, medium, after, mediumOk, queue, all⟩ | ⟨turn, after, other⟩
    · obtain rfl := all short
      simp only [State.attempt, request, after, List.take_length]
      refine inv.set inside _ mediumOk ?_ (callOk.afterWrite request running) fun j apart => ?_
      · simpa using queue.symm
      · rw [pieces_put, if_neg (Ne.symm apart)]
    simp only [State.attempt, request, after]
    cases turn with
    | again => exact inv.set_call inside callOk
    | done result =>
      cases result with
      | ok count => exact absurd rfl (other count)
      | error failure => exact inv.set_call inside (callOk.fail failure)

theorem StreamInv.step (lawful : Lawful m ok queued) (inv : StreamInv ok queued s) (step : Step) (copied : step.Copied) :
    StreamInv ok queued (s.step m step) := by
  cases step with
  | call request =>
    refine ⟨inv.medium, inv.queue, fun i c found => ?_, fun i outside => ?_⟩
    · simp only [State.step] at found ⊢
      rcases Nat.lt_trichotomy i s.calls.length with old | rfl | _
      · rw [List.getElem?_append_left old] at found
        exact inv.calls i c found
      · rw [List.getElem?_append_right le_rfl, Nat.sub_self] at found
        obtain rfl := Option.some.inj found
        exact callOk_begin request (inv.known _ le_rfl)
      · rw [List.getElem?_eq_none (by simp; omega)] at found
        cases found
    · simp only [State.step, List.length_append] at outside ⊢
      exact inv.known i (by omega)
  | attempt i _ =>
    obtain rfl := copied
    simp only [State.step]
    split
    · next c found =>
      split
      · next running => exact inv.attempt lawful found running
      · exact inv
    · exact inv
  | giveUp i failure =>
    simp only [State.step]
    split
    · next c found =>
      split
      · exact inv.set_call (List.getElem?_eq_some_iff.mp found).1 ((inv.calls i c found).fail failure)
      · exact inv
    · exact inv
  | shut reader =>
    obtain ⟨mediumOk, queue⟩ := lawful.shut reader inv.medium
    exact ⟨mediumOk, by simp only [State.step]; rw [queue, inv.queue], inv.calls, inv.known⟩

theorem StreamInv.integrity (inv : StreamInv ok queued s) : StreamIntegrity s := by
  refine ⟨?_, fun i c found => ?_, fun i c source nonblocking found request few => ?_, fun i c result found answered => ?_⟩
  · rw [inv.queue]
    exact prefix_append _ _
  · have callOk := inv.calls i c found
    exact ⟨callOk.moved, fun source nonblocking request => (callOk.source source nonblocking request).1⟩
  · exact ((inv.calls i c found).source source nonblocking request).2.2 few
  · exact (inv.calls i c found).answer result answered

theorem stream_throughout (lawful : Lawful m ok queued) (mediumOk : ok medium) (empty : queued medium = [])
    {steps : List Step} (copied : Along (State.step m) (fun _ step => step.Copied) { medium } steps) :
    Throughout (State.step m) StreamIntegrity { medium } steps :=
  throughout_of_along (fun _ step inv => StreamInv.step lawful inv step) (fun _ inv => inv.integrity)
    ⟨mediumOk, by simp [entered, taken, empty], fun i c found => by simp at found, fun _ _ => rfl⟩ copied

variable {s : MessageState} {d : Direction}

def frame (message : List UInt8) : List UInt8 := header message.length ++ message

theorem header_length (size : Nat) : (header size).length = 2 := rfl

theorem frame_length (message : List UInt8) : (frame message).length = 2 + message.length := by
  simp [frame, header_length]

structure MessageInv (s : MessageState) : Prop where
  fits : Fits pipeBufferBytes s.direction.head s.direction.length
  keeps : s.direction.message = true
  queue : ∃ whole pending, s.sent = whole ++ pending ∧
    List.Forall₂ (fun message receive => receive.2 = message.take receive.1) whole s.received ∧
    directionQueued s.direction = pending.flatMap frame ∧ ∀ message ∈ pending, message.length ≤ maxMessage

theorem take_message {message : List UInt8} {rest : List UInt8} (fits : Fits pipeBufferBytes d.head d.length)
    (keeps : d.message = true) (used : ¬ d.used = false) (short : message.length ≤ maxMessage)
    (queue : directionQueued d = frame message ++ rest) (room : Nat) :
    ∃ d', unixSocketTake d room = (.done (.ok (message.take room)), d') ∧ d'.message = true ∧
      Fits pipeBufferBytes d'.head d'.length ∧ directionQueued d' = rest := by
  have length : d.length = 2 + message.length + rest.length := by
    have := congrArg length queue
    simpa [directionQueued, frame_length] using this
  have first : ringPeek pipeBufferBytes d.ring d.head d.length 0 2 = header message.length := by
    rw [ringPeek_eq fits, drop_zero, show contents _ _ _ _ = _ from queue, frame, append_assoc,
      take_left' (header_length _)]
  have body : ∀ count, ringPeek pipeBufferBytes d.ring d.head d.length 2 count = (message ++ rest).take count := by
    intro count
    rw [ringPeek_eq fits, show contents _ _ _ _ = _ from queue, frame, append_assoc, drop_left' (header_length _)]
  have size : headerSize (header message.length) = message.length := by
    simp only [maxMessage] at short
    simp only [headerSize, header, getD_cons_zero, getD_cons_succ, UInt8.toNat_ofNat']
    omega
  have taken : min (2 + message.length) d.length = 2 + message.length := by omega
  unfold unixSocketTake
  rw [if_neg used, if_pos (by omega), if_pos keeps]
  dsimp only
  rw [first, size, body, taken, take_append_of_le_length (Nat.min_le_left _ _)]
  have cut : message.take (min message.length room) = message.take room := by
    rw [Nat.min_comm, ← take_take, take_length]
  rw [cut]
  refine ⟨_, rfl, keeps, fits_advance fits, ?_⟩
  unfold directionQueued
  rw [contents_advance, show contents _ _ _ _ = _ from queue, drop_left' (frame_length message)]

theorem put_message {source : List UInt8} (fits : Fits pipeBufferBytes d.head d.length)
    (keeps : d.message = true) (some : source ≠ []) :
    (∃ d', unixSocketWrite d source = (.done (.ok source.length), d') ∧ d'.message = true ∧
        Fits pipeBufferBytes d'.head d'.length ∧ directionQueued d' = directionQueued d ++ frame source ∧
        source.length ≤ maxMessage) ∨
      ∃ turn, unixSocketWrite d source = (turn, d) ∧ ∀ count, turn ≠ .done (.ok count) := by
  unfold unixSocketWrite
  split
  · exact .inr ⟨_, rfl, by simp⟩
  dsimp only
  split
  · exact .inr ⟨_, rfl, by simp⟩
  split
  · set ring := (ringPut pipeBufferBytes d.ring d.head d.length (header source.length)).2.1
    have two : (ringPut pipeBufferBytes d.ring d.head d.length (header source.length)).1 = 2 :=
      ringPut_whole (by rw [header_length]; omega)
    have length : (ringPut pipeBufferBytes d.ring d.head d.length (header source.length)).2.2 = d.length + 2 :=
      congrArg (d.length + ·) two
    have fits' := fits_ringPut d.ring (header source.length) fits
    have all : (ringPut pipeBufferBytes ring d.head (d.length + 2) source).1 = source.length := ringPut_whole (by omega)
    have headed := contents_ringPut d.ring (header source.length) fits
    rw [length] at fits' headed
    have filled := contents_ringPut ring source fits'
    refine .inl ⟨_, rfl, keeps, ?_, ?_, by omega⟩
    · rw [length]
      exact fits_ringPut ring source fits'
    unfold directionQueued
    rw [length, filled, headed, two, all, take_length, frame, append_assoc]
    rfl
  · exact .inr ⟨_, rfl, by simp⟩

theorem MessageInv.step (inv : MessageInv s) (step : MessageStep) (copied : step.Copied) :
    MessageInv (s.step step) := by
  have kept := inv
  obtain ⟨fits, keeps, whole, pending, sent, received, queue, short⟩ := inv
  cases step with
  | send source =>
    by_cases empty : source = []
    · -- nothing is sent
      have same : ∃ turn, unixSocketWrite s.direction source = (turn, s.direction) := by
        unfold unixSocketWrite
        rw [if_pos empty]
        split <;> exact ⟨_, rfl⟩
      obtain ⟨turn, after⟩ := same
      simp only [MessageState.step, after, if_pos empty]
      split
      all_goals next h =>
        obtain ⟨-, rfl⟩ := Prod.mk.inj h
        exact kept
    · rcases put_message fits keeps empty with ⟨d', after, keeps', fits', queue', few⟩ | ⟨turn, after, _⟩
      · simp only [MessageState.step, after, if_neg empty]
        refine ⟨fits', keeps', whole, pending ++ [source], ?_, received, ?_, ?_⟩
        · rw [sent, append_assoc]
        · rw [queue', queue, flatMap_append]
          simp
        intro message mem
        rcases mem_append.mp mem with old | new
        · exact short message old
        rw [mem_singleton.mp new]
        exact few
      · simp only [MessageState.step, after]
        exact kept
  | receive room _ =>
    obtain rfl := copied
    by_cases some : ¬ s.direction.used = false ∧ 0 < s.direction.length
    · obtain ⟨used, some⟩ := some
      cases pending with
      | nil =>
        have none := congrArg length queue
        simp only [directionQueued, contents_length, flatMap_nil, length_nil] at none
        omega
      | cons message rest =>
        obtain ⟨d', after, keeps', fits', queue'⟩ :=
          take_message fits keeps used (short message mem_cons_self) queue (min room maxMessage)
        simp only [MessageState.step, after, deliver_true, if_pos some]
        refine ⟨fits', keeps', whole ++ [message], rest, ?_, ?_, queue', fun m mem => short m (mem_cons_of_mem _ mem)⟩
        · rw [sent]
          simp
        · exact rel_append received (List.Forall₂.cons rfl List.Forall₂.nil)
    -- nothing is taken
    have same : ∃ turn, unixSocketTake s.direction (min room maxMessage) = (turn, s.direction) ∧
        (∀ bytes, turn = .done (.ok bytes) → ¬ 0 < s.direction.length) := by
      unfold unixSocketTake
      by_cases used : s.direction.used = false
      · rw [if_pos used]
        exact ⟨_, rfl, by simp⟩
      rw [if_neg used, if_neg fun long => some ⟨used, long⟩]
      split
      · exact ⟨_, rfl, fun _ _ long => some ⟨used, long⟩⟩
      · exact ⟨_, rfl, by simp⟩
    obtain ⟨turn, after, none⟩ := same
    simp only [MessageState.step, after, deliver_true]
    split
    · next bytes =>
      rw [if_neg (none bytes rfl)]
      exact kept
    · exact kept
  | shut _ =>
    simp only [MessageState.step, unixMedium]
    split_ifs <;> exact ⟨fits, keeps, whole, pending, sent, received, queue, short⟩

/-- Every interleaving of reads and writes on a new pipe, or on either direction of a new stream pair, keeps the
stream; on a message pair the receives get the messages in sending order, each cut to its room. -/
theorem streams_and_messages_kept (serial : Nat) (ring : Data) :
    (∀ steps, Along (State.step pipeMedium) (fun _ step => step.Copied) { medium := (newPipe serial, ring) } steps →
      Throughout (State.step pipeMedium) StreamIntegrity { medium := (newPipe serial, ring) } steps) ∧
    (∀ steps, Along (State.step unixMedium) (fun _ step => step.Copied) { medium := { ring } } steps →
      Throughout (State.step unixMedium) StreamIntegrity { medium := { ring } } steps) ∧
    (∀ steps, Along MessageState.step (fun _ step => step.Copied) { direction := { message := true, ring } } steps →
      Throughout MessageState.step MessagesInOrder { direction := { message := true, ring } } steps) := by
  have fits : Fits pipeBufferBytes 0 0 := ⟨by decide, by decide⟩
  refine ⟨fun steps copied => ?_, fun steps copied => ?_, fun steps copied => ?_⟩
  · exact stream_throughout pipe_lawful ⟨fits, rfl⟩ rfl copied
  · exact stream_throughout unix_lawful ⟨fits, rfl⟩ rfl copied
  exact throughout_of_along (fun _ step (inv : MessageInv _) => inv.step step)
    (fun _ ⟨_, _, whole, pending, sent, received, _, _⟩ => ⟨whole, ⟨pending, sent.symm⟩, received⟩)
    ⟨fits, rfl, [], [], rfl, List.Forall₂.nil, rfl, by simp⟩ copied

/-- Two bytes are written and read one by one; the first read's buffer may be gone. -/
def oneByOne (copied : Bool) : List Step :=
  [.call (.write [1, 2] false), .attempt 0 true, .call (.read 1), .call (.read 1), .attempt 1 copied, .attempt 2 true]

theorem oneByOne_kept : Throughout (State.step pipeMedium) StreamIntegrity
    { medium := (newPipe 0, fun _ => 0) } (oneByOne true) :=
  (streams_and_messages_kept 0 fun _ => 0).1 (oneByOne true) ⟨trivial, rfl, trivial, trivial, rfl, rfl, trivial⟩

/-- The byte that could not be copied is in the stream no more, and no read returns it. -/
theorem failed_copy_loses : ¬ Throughout (State.step pipeMedium) StreamIntegrity
    { medium := (newPipe 0, fun _ => 0) } (oneByOne false) := by
  intro kept
  rw [← List.append_nil (oneByOne false)] at kept
  have lost : taken (final (State.step pipeMedium) { medium := (newPipe 0, fun _ => 0) } (oneByOne false)).log = [2] ∧
      entered (final (State.step pipeMedium) { medium := (newPipe 0, fun _ => 0) } (oneByOne false)).log = [1, 2] := by
    decide +kernel
  have fifo := (final_of_throughout [] kept).fifo
  rw [lost.1, lost.2] at fifo
  revert fifo
  decide

end AerOS.Proof.Streams
