import AerOS.Proof.X509.Reading
import AerOS.Spec.X509

namespace AerOS.Proof.X509
open Der AerOS.X509 List Certificate

variable {reader rest : Reader} {element : Tlv}

structure ReadAt (reader : Reader) (element : Tlv) (rest : Reader) : Prop where
  data : rest.data = reader.data
  forward : reader.position + 2 ≤ rest.position
  inside : rest.position ≤ reader.data.length
  raw : (reader.data.drop reader.position).take (rest.position - reader.position) = element.raw
  value : ∃ header, element.raw = header ++ element.value

theorem read_eq_some (h : reader.read = some (element, rest)) : ReadAt reader element rest := by
  obtain ⟨-, encoded, front, rfl⟩ := read_iff.mp h
  have long := length_encodeLength_pos element.value.length
  have inside := front.length_le
  have size := congrArg length encoded
  rw [encode, length_cons, length_append] at size
  rw [length_drop] at inside
  refine ⟨rfl, by dsimp only; omega, by dsimp only; omega, ?_, element.tag :: encodeLength element.value.length, encoded⟩
  rw [Nat.add_sub_cancel_left, ← prefix_iff_eq_take.mp front]

theorem expectTlv_eq_some {tag : UInt8}
    (h : reader.expectTlv tag = some (element, rest)) : reader.read = some (element, rest) ∧ element.tag = tag := by
  simp only [Reader.expectTlv, Option.bind_eq_bind, Option.bind_eq_some_iff] at h
  obtain ⟨⟨_, _⟩, readIt, _, tagged, h⟩ := h
  cases h
  exact ⟨readIt, by simpa using tagged⟩

theorem expect_eq_some {value : Bytes} {tag : UInt8} (h : reader.expect tag = some (value, rest)) :
    ∃ element, reader.read = some (element, rest) ∧ element.tag = tag ∧ element.value = value := by
  simp only [Reader.expect, Option.bind_eq_bind, Option.bind_eq_some_iff] at h
  obtain ⟨⟨found, _⟩, readIt, _, tagged, h⟩ := h
  cases h
  exact ⟨found, readIt, by simpa using tagged, rfl⟩

theorem entry_of_read {first : Tlv} (h : reader.read = some (first, rest)) :
    Entry reader element ↔ element = first ∨ Entry rest element := by
  constructor
  · intro entry
    cases entry with
    | head here =>
      cases h.symm.trans here
      exact .inl rfl
    | tail here later =>
      cases h.symm.trans here
      exact .inr later
  · rintro (rfl | later)
    · exact .head h
    · exact .tail h later

theorem read_of_isEmpty (h : reader.isEmpty = true) : reader.read = none := by
  cases found : reader.read with
  | none => rfl
  | some result =>
    have at_ := read_eq_some found
    have forward := at_.forward
    have inside := at_.inside
    simp only [Reader.isEmpty, decide_eq_true_eq] at h
    omega

theorem not_entry_of_isEmpty (h : reader.isEmpty = true) (element : Tlv) : ¬ Entry reader element := by
  intro entry
  cases entry with
  | head found => simp [read_of_isEmpty h] at found
  | tail found _ => simp [read_of_isEmpty h] at found

section
variable {σ : Type} {body : σ → Reader → Option (σ × Reader)} {Q : Tlv → σ → σ → Prop} {s s' : σ}
variable {elements : List Tlv}

/-- The elements are taken in turn, each changing the state as `Q` allows. -/
inductive Folds (Q : Tlv → σ → σ → Prop) : List Tlv → σ → σ → Prop
  | nil {s : σ} : Folds Q [] s s
  | cons {s t u : σ} {element : Tlv} {elements : List Tlv} (first : Q element s t) (later : Folds Q elements t u) :
      Folds Q (element :: elements) s u

theorem folds_of_whileNonEmpty {turns : Nat} (reads : ∀ s reader s' rest, body s reader = some (s', rest) →
      ∃ element, reader.read = some (element, rest) ∧ Q element s s')
    (h : whileNonEmpty body turns s reader = some s') :
    ∃ elements, (∀ element, Entry reader element ↔ element ∈ elements) ∧ Folds Q elements s s' := by
  induction turns generalizing s reader with
  | zero =>
    unfold whileNonEmpty at h
    split at h
    · next last =>
      cases h
      exact ⟨[], fun element => by simp [not_entry_of_isEmpty last], .nil⟩
    · cases h
  | succ turns ih =>
    unfold whileNonEmpty at h
    split at h
    · next last =>
      cases h
      exact ⟨[], fun element => by simp [not_entry_of_isEmpty last], .nil⟩
    · simp only [Option.bind_eq_bind, Option.bind_eq_some_iff] at h
      obtain ⟨⟨t, rest⟩, once, h⟩ := h
      obtain ⟨first, found, changed⟩ := reads _ _ _ _ once
      obtain ⟨elements, all, folds⟩ := ih h
      refine ⟨first :: elements, fun element => ?_, .cons changed folds⟩
      rw [entry_of_read found, all, mem_cons]

theorem Folds.inv {P : σ → Prop} (h : Folds Q elements s s') (start : P s)
    (keeps : ∀ element ∈ elements, ∀ s s', Q element s s' → P s → P s') : P s' := by
  induction h with
  | nil => exact start
  | cons first _ ih =>
    exact ih (keeps _ mem_cons_self _ _ first start) fun element later => keeps element (mem_cons_of_mem _ later)

theorem Folds.of_mem {P : σ → Prop} (h : Folds Q elements s s') (member : element ∈ elements)
    (sets : ∀ s s', Q element s s' → P s') (keeps : ∀ element s s', Q element s s' → P s → P s') : P s' := by
  induction h with
  | nil => cases member
  | cons first later ih =>
    rcases mem_cons.mp member with rfl | inside
    · exact later.inv (sets _ _ first) fun element _ => keeps element
    · exact ih inside

end

variable {e e' : Extensions} {id value list : Bytes} {critical : Bool} {C : Bytes → Bytes → Prop}

/-- What the extensions read so far say stands in extensions of the certificate. -/
structure Grounded (C : Bytes → Bytes → Prop) (e : Extensions) : Prop where
  authority : e.isCa = true → ∃ value, C oidBasicConstraints value ∧ constraintsIn value = some (true, e.pathLength)
  usage : ∀ usage, e.keyUsage = some usage → ∃ value, C oidKeyUsage value ∧ usageIn value = some usage

theorem grounded_start : Grounded C .start where
  authority never := by cases never
  usage _ never := by cases never

/-- Only basic constraints and key usage change what a certificate may sign. -/
theorem applyExtension_cases (h : applyExtension e id critical value = some e') :
    (id = oidBasicConstraints ∧ constraintsIn value = some (e'.isCa, e'.pathLength) ∧ e'.keyUsage = e.keyUsage) ∨
    (id = oidKeyUsage ∧ e'.keyUsage ≠ none ∧ e'.keyUsage = usageIn value ∧ e'.isCa = e.isCa ∧
      e'.pathLength = e.pathLength) ∨
    (id ≠ oidKeyUsage ∧ e'.keyUsage = e.keyUsage ∧ e'.isCa = e.isCa ∧ e'.pathLength = e.pathLength) := by
  unfold applyExtension at h
  split_ifs at h with constraints usage names purposes
  · simp only [Option.bind_eq_bind, Option.bind_eq_some_iff] at h
    obtain ⟨⟨body, _⟩, read, h⟩ := h
    cases h
    refine .inl ⟨constraints, ?_, rfl⟩
    simp only [constraintsIn, read]
    rfl
  · simp only [Option.bind_eq_bind, Option.bind_eq_some_iff] at h
    obtain ⟨⟨bits, _⟩, read, found, here, h⟩ := h
    cases h
    refine .inr (.inl ⟨usage, by simp, ?_, rfl, rfl⟩)
    simp only [usageIn, read]
    exact here.symm
  · simp only [Option.bind_eq_bind, Option.bind_eq_some_iff] at h
    obtain ⟨_, _, h⟩ := h
    cases h
    exact .inr (.inr ⟨usage, rfl, rfl, rfl⟩)
  · simp only [Option.bind_eq_bind, Option.bind_eq_some_iff] at h
    obtain ⟨_, _, _, _, h⟩ := h
    cases h
    exact .inr (.inr ⟨usage, rfl, rfl, rfl⟩)
  · cases h
    exact .inr (.inr ⟨usage, rfl, rfl, rfl⟩)
  · cases h
    exact .inr (.inr ⟨usage, rfl, rfl, rfl⟩)

theorem grounded_applyExtension (known : C id value) (h : applyExtension e id critical value = some e')
    (grounded : Grounded C e) : Grounded C e' := by
  rcases applyExtension_cases h with
    ⟨rfl, found, usage⟩ | ⟨rfl, -, usage, isCa, length⟩ | ⟨-, usage, isCa, length⟩
  · refine ⟨fun isCa => ⟨value, known, ?_⟩, ?_⟩
    · rw [found, isCa]
    · rw [usage]
      exact grounded.usage
  · refine ⟨?_, fun _ same => ⟨value, known, ?_⟩⟩
    · rw [isCa, length]
      exact grounded.authority
    · rw [← usage]
      exact same
  · refine ⟨?_, ?_⟩
    · rw [isCa, length]
      exact grounded.authority
    · rw [usage]
      exact grounded.usage

theorem keyUsage_applyExtension (h : applyExtension e id critical value = some e')
    (some : id = oidKeyUsage ∨ e.keyUsage ≠ none) : e'.keyUsage ≠ none := by
  rcases applyExtension_cases h with ⟨constraints, -, usage⟩ | ⟨-, set, -⟩ | ⟨other, usage, -⟩
  · rw [usage]
    exact some.resolve_left fun same => absurd (constraints.symm.trans same) (by decide)
  · exact set
  · rw [usage]
    exact some.resolve_left other

/-- The extension in the element is taken up. -/
def Applied (element : Tlv) (e e' : Extensions) : Prop :=
  ∃ id inner value rest, (Reader.new element.value).expect oid = some (id, inner) ∧
    (readFlag inner).2.expect octetString = some (value, rest) ∧
    applyExtension e id (readFlag inner).1 value = some e'

theorem readExtension_eq_some (e : Extensions) (reader : Reader) (e' : Extensions) (rest : Reader)
    (h : readExtension e reader = some (e', rest)) :
    ∃ element, reader.read = some (element, rest) ∧ Applied element e e' := by
  simp only [readExtension, Option.bind_eq_bind, Option.bind_eq_some_iff] at h
  obtain ⟨⟨_, _⟩, whole, ⟨id, inner⟩, named, ⟨value, _⟩, valued, _, applied, h⟩ := h
  cases h
  obtain ⟨element, readIt, -, rfl⟩ := expect_eq_some whole
  exact ⟨element, readIt, id, inner, value, _, named, valued, applied⟩

/-- A field that holds extensions has all of them taken up, another one changes nothing. -/
def FieldRead (field : Tlv) (e e' : Extensions) : Prop :=
  field.tag ≠ 0xa3 ∧ e' = e ∨ field.tag = 0xa3 ∧ ∃ list rest elements,
    (Reader.new field.value).expect sequence = some (list, rest) ∧
    (∀ element, Entry (.new list) element ↔ element ∈ elements) ∧ Folds Applied elements e e'

theorem readField_eq_some (e : Extensions) (reader : Reader) (e' : Extensions) (rest : Reader)
    (h : readField e reader = some (e', rest)) :
    ∃ field, reader.read = some (field, rest) ∧ FieldRead field e e' := by
  simp only [readField, Option.bind_eq_bind, Option.bind_eq_some_iff] at h
  obtain ⟨⟨field, _⟩, readIt, h⟩ := h
  refine ⟨field, ?_⟩
  split at h
  · next other =>
    cases h
    exact ⟨readIt, .inl ⟨other, rfl⟩⟩
  next here =>
    simp only [Option.bind_eq_some_iff] at h
    obtain ⟨⟨list, _⟩, listed, _, loops, h⟩ := h
    cases h
    obtain ⟨elements, all, folds⟩ := folds_of_whileNonEmpty readExtension_eq_some loops
    exact ⟨readIt, .inr ⟨not_not.mp here, list, _, elements, listed, all, folds⟩⟩

theorem read_raw (h : reader.read = some (element, rest)) :
    (Reader.new element.raw).read = some (element, ⟨element.raw, element.raw.length⟩) := by
  obtain ⟨plain, same, -, -⟩ := read_iff.mp h
  exact read_iff.mpr ⟨plain, same, by simp [Reader.new], by simp [Reader.new]⟩

theorem peekTag_of_read (h : reader.read = some (element, rest)) : reader.peekTag = some element.tag := by
  simp only [Reader.read, Option.bind_eq_bind, Option.bind_eq_some_iff] at h
  obtain ⟨tag, here, _, _, _, _, _, _, _, _, h⟩ := h
  cases h
  exact here

section
variable {tag : UInt8} {field first : Tlv}

theorem entry_after_read (h : reader.read = some (first, rest)) (other : field.tag ≠ first.tag) :
    Entry reader field ↔ Entry rest field := by
  rw [entry_of_read h]
  refine ⟨fun entry => entry.resolve_left ?_, .inr⟩
  rintro rfl
  exact other rfl

theorem entry_after_expect (h : reader.expect tag = some (value, rest)) (other : field.tag ≠ tag) :
    Entry reader field ↔ Entry rest field := by
  obtain ⟨_, readIt, rfl, -⟩ := expect_eq_some h
  exact entry_after_read readIt other

theorem entry_after_expectTlv (h : reader.expectTlv tag = some (first, rest)) (other : field.tag ≠ tag) :
    Entry reader field ↔ Entry rest field := by
  obtain ⟨readIt, rfl⟩ := expectTlv_eq_some h
  exact entry_after_read readIt other

theorem entry_after_skipVersion (h : skipVersion reader = some rest) (other : field.tag ≠ 0xa0) :
    Entry reader field ↔ Entry rest field := by
  unfold skipVersion at h
  split at h
  · next version =>
    simp only [Option.bind_eq_bind, Option.bind_eq_some_iff] at h
    obtain ⟨⟨first, _⟩, readIt, h⟩ := h
    cases h
    apply entry_after_read readIt
    rw [peekTag_of_read readIt, Option.some.injEq] at version
    rw [version]
    exact other
  · cases h
    rfl

end

-- the fields before the extensions have other tags, so that no extension is passed over
theorem readFields_extensions {tbs outerAlgorithm : Bytes} {fields : Fields}
    (h : readFields tbs outerAlgorithm = some fields) :
    ∃ elements, (∀ field, field.tag = 0xa3 → (Entry (.new tbs) field ↔ field ∈ elements)) ∧
      Folds FieldRead elements .start fields.extensions := by
  simp only [readFields, Option.bind_eq_bind, Option.bind_eq_some_iff] at h
  obtain ⟨_, version, ⟨_, _⟩, serial, ⟨_, _⟩, algorithm, _, _, ⟨_, _⟩, issuer, ⟨_, _⟩, validity, ⟨_, _⟩, _, _, _,
    ⟨_, _⟩, _, _, _, ⟨_, _⟩, subject, ⟨_, _⟩, spki, _, loops, h⟩ := h
  cases h
  obtain ⟨elements, all, folds⟩ := folds_of_whileNonEmpty readField_eq_some loops
  refine ⟨elements, fun field tagged => ?_, folds⟩
  rw [← all, entry_after_skipVersion version (by rw [tagged]; decide),
    entry_after_expect serial (by rw [tagged]; decide), entry_after_expect algorithm (by rw [tagged]; decide),
    entry_after_expectTlv issuer (by rw [tagged]; decide), entry_after_expect validity (by rw [tagged]; decide),
    entry_after_expectTlv subject (by rw [tagged]; decide), entry_after_expectTlv spki (by rw [tagged]; decide)]

theorem constrained_of_readFields {c : Certificate} {tbs : Tlv} {outerAlgorithm : Bytes} {fields : Fields}
    (whole : reader.read = some (tbs, rest)) (h : readFields tbs.value outerAlgorithm = some fields)
    (signed : c.tbs = tbs.raw) (isCa : c.isCa = fields.extensions.isCa)
    (pathLength : c.pathLength = fields.extensions.pathLength) (keyUsage : c.keyUsage = fields.extensions.keyUsage) :
    Constrained c := by
  obtain ⟨elements, all, folds⟩ := readFields_extensions h
  have again := read_raw whole
  have grounded : Grounded (Carries tbs.raw) fields.extensions := by
    refine folds.inv grounded_start ?_
    rintro field member e e' (⟨-, rfl⟩ | ⟨tagged, list, _, extensions, listed, known, inner⟩) before
    · exact before
    refine inner.inv before ?_
    rintro extension inside e e' ⟨id, _, value, _, named, valued, applied⟩ before
    refine grounded_applyExtension ?_ applied before
    exact ⟨tbs, field, extension, list, _, _, _, _, again, (all field tagged).mpr member, tagged, listed,
      (known extension).mpr inside, named, valued⟩
  have keeps : ∀ extension e e', Applied extension e e' → e.keyUsage ≠ none → e'.keyUsage ≠ none := by
    rintro _ e e' ⟨_, _, _, _, _, _, applied⟩ some
    exact keyUsage_applyExtension applied (.inr some)
  refine ⟨?_, ?_, ?_⟩
  · rw [signed, isCa, pathLength]
    exact grounded.authority
  · rw [signed, keyUsage]
    exact grounded.usage
  rw [signed, keyUsage]
  rintro value ⟨_, field, extension, list, _, _, _, _, read, entry, tagged, listed, inside, named, valued⟩
  cases again.symm.trans read
  refine @Folds.of_mem _ _ _ _ _ _ (fun e => e.keyUsage ≠ none) folds ((all field tagged).mp entry) ?_ ?_
  · rintro e e' (⟨other, -⟩ | ⟨-, list', _, extensions, listed', known, inner⟩)
    · exact absurd tagged other
    cases listed.symm.trans listed'
    refine @Folds.of_mem _ _ _ _ _ _ (fun e => e.keyUsage ≠ none) inner ((known extension).mp inside) ?_ keeps
    rintro e e' ⟨_, _, _, _, named', valued', applied⟩
    cases named.symm.trans named'
    cases valued.symm.trans valued'
    exact keyUsage_applyExtension applied (.inl rfl)
  · rintro _ e e' (⟨-, rfl⟩ | ⟨-, _, _, _, _, _, inner⟩) some
    · exact some
    · exact @Folds.inv _ _ _ _ _ (fun e => e.keyUsage ≠ none) inner some fun extension _ => keeps extension

theorem parse_constrained {data : Bytes} {c : Certificate} (h : parse data = .ok c) : Constrained c := by
  unfold parse at h
  cases inner : parseInner data with
  | none => simp [inner] at h
  | some _ =>
    simp only [inner, Option.getD_some] at h
    subst h
    simp only [parseInner, Option.bind_eq_bind, Option.bind_eq_some_iff] at inner
    obtain ⟨⟨tbs, _, _⟩, envelope, fields, readIt, inner⟩ := inner
    simp only [readEnvelope, Option.bind_eq_bind, Option.bind_eq_some_iff] at envelope
    obtain ⟨⟨_, _⟩, -, _, -, ⟨_, _⟩, first, _, _, _, _, _, _, envelope⟩ := envelope
    cases envelope
    split at inner
    · cases inner
    simp only [Option.bind_eq_some_iff] at inner
    obtain ⟨_, _, inner⟩ := inner
    split at inner
    · cases inner
      exact constrained_of_readFields (expectTlv_eq_some first).1 readIt rfl rfl rfl rfl
    · cases inner

end AerOS.Proof.X509
