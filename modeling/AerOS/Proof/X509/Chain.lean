import AerOS.Proof.X509.Extensions
import Mathlib.Data.List.Forall2

namespace AerOS.Proof.X509
open Der AerOS.X509 List Certificate

variable {data host : Bytes} {c : Certificate} {index : Nat}
variable {rest : List Certificate} {tbs : Tlv} {next : Certificate}

theorem sameText_of_eq {a b : Bytes} (h : eqIgnoreAsciiCase a b = true) : SameText a b := by
  simpa [eqIgnoreAsciiCase, SameText] using h

theorem split_at_findIdx {dot : Nat} (found : host.findIdx? (· == 0x2e) = some dot) :
    host = host.take dot ++ 0x2e :: host.drop (dot + 1) ∧ 0x2e ∉ host.take dot := by
  obtain ⟨inside, isDot, before⟩ := findIdx?_eq_some_iff_getElem.mp found
  have isDot : host[dot] = 0x2e := by simpa using isDot
  constructor
  · rw [← isDot, ← drop_eq_getElem_cons inside, take_append_drop]
  intro member
  obtain ⟨i, small, here⟩ := mem_iff_getElem.mp member
  rw [length_take] at small
  have earlier := before i (by omega)
  rw [getElem_take] at here
  simp [here] at earlier

theorem dnsMatches_of_eq {pattern : Bytes}
    (h : dnsPatternMatches pattern (withoutFinalDot host) = true) : DnsMatches pattern host := by
  unfold dnsPatternMatches at h
  split at h
  · rename_i rest
    split at h
    · cases h
    rename_i covers
    rw [not_or, Nat.not_lt, one_le_count_iff, contains_iff_mem] at covers
    split at h
    · cases h
    rename_i dot found
    obtain ⟨split, single⟩ := split_at_findIdx found
    simp only [Bool.and_eq_true, decide_eq_true_eq] at h
    have label : (withoutFinalDot host).take dot ≠ [] := by
      intro empty
      rcases take_eq_nil_iff.mp empty with zero | zero
      · omega
      rw [zero] at found
      cases found
    exact .wildcard rest _ _ rfl covers.1 covers.2 split label single (sameText_of_eq h.2)
  · simp only [Bool.and_eq_true, Bool.not_eq_true', contains_eq_mem, decide_eq_false_iff_not] at h
    exact .whole h.1 (sameText_of_eq h.2)

theorem namesHost_of_anyName {turns : Nat} {list : Reader}
    (h : anyName host turns list = true) : ∃ name, Entry list name ∧ nameMatches name host = true := by
  induction turns generalizing list with
  | zero => cases h
  | succ turns ih =>
    unfold anyName at h
    split at h
    · rename_i name rest readIt
      split at h
      · rename_i here
        exact ⟨name, .head readIt, here⟩
      obtain ⟨found, later, here⟩ := ih h
      exact ⟨found, .tail readIt later, here⟩
    · cases h

theorem namesHost_of_matchesHost (h : c.matchesHost host = true) : NamesHost c.names host := by
  obtain ⟨name, entry, here⟩ := namesHost_of_anyName h
  refine ⟨name, entry, ?_⟩
  unfold nameMatches at here
  split at here
  · rename_i octets isAddress
    simp only [Bool.and_eq_true, beq_iff_eq] at here
    exact .inl ⟨here.1, by rw [isAddress, here.2]⟩
  rename_i notAddress
  simp only [Bool.and_eq_true, beq_iff_eq, dnsNameMatches] at here
  obtain ⟨tag, here⟩ := here
  split at here
  · cases here
  rename_i nonempty
  simp only [Bool.or_eq_true, List.isEmpty_iff, not_or] at nonempty
  exact .inr ⟨tag, notAddress, nonempty.1, dnsMatches_of_eq here⟩

theorem signedPart_of_read {body : Bytes} {outer rest : Reader}
    (whole : (Reader.new data).expect sequence = some (body, outer)) (only : outer.isEmpty = true)
    (first : (Reader.new body).expectTlv sequence = some (tbs, rest)) : SignedPart data tbs.raw := by
  obtain ⟨element, readIt, -, value⟩ := expect_eq_some whole
  have outerAt := read_eq_some readIt
  have innerAt := read_eq_some (expectTlv_eq_some first).1
  obtain ⟨header, headed⟩ := outerAt.value
  -- the outermost element is all of the input
  have all : element.raw = data := by
    have last : data.length ≤ outer.position := by
      simpa [Reader.isEmpty, outerAt.data, Reader.new] using only
    rw [← outerAt.raw]
    exact take_of_length_le last
  have split : body = tbs.raw ++ body.drop rest.position := by
    have raw := innerAt.raw
    simp only [Reader.new, drop_zero, Nat.sub_zero] at raw
    rw [← raw, take_append_drop]
  refine ⟨header, body.drop rest.position, outer, rest, ?_, ?_, only, tbs, ?_, rfl⟩
  · rw [← split, ← value, ← headed, all]
  · rw [← split]
    exact whole
  · rw [← split]
    exact first

theorem readEnvelope_signedPart {outerAlgorithm bits : Bytes}
    (h : readEnvelope data = some (tbs, outerAlgorithm, bits)) : SignedPart data tbs.raw := by
  simp only [readEnvelope, Option.bind_eq_bind, Option.bind_eq_some_iff] at h
  obtain ⟨⟨_, _⟩, whole, _, only, ⟨tbs, _⟩, first, _, _, _, _, _, _, h⟩ := h
  cases h
  exact signedPart_of_read whole (by simpa using only) first

theorem parse_signedPart (h : parse data = .ok c) : SignedPart data c.tbs := by
  unfold parse at h
  cases inner : parseInner data with
  | none => simp [inner] at h
  | some _ =>
    simp only [inner, Option.getD_some] at h
    subst h
    simp only [parseInner, Option.bind_eq_bind, Option.bind_eq_some_iff] at inner
    obtain ⟨⟨tbs, _, _⟩, envelope, _, -, inner⟩ := inner
    split at inner
    · cases inner
    simp only [Option.bind_eq_some_iff] at inner
    obtain ⟨_, _, inner⟩ := inner
    split at inner
    · cases inner
      exact readEnvelope_signedPart envelope
    · cases inner

theorem mapM_parse {chain : List Bytes} {parsed : List Certificate} (h : chain.mapM parse = .ok parsed) :
    List.Forall₂ (fun data c => parse data = .ok c) chain parsed := by
  induction chain generalizing parsed with
  | nil =>
    cases h
    exact .nil
  | cons data chain ih =>
    rw [mapM_cons] at h
    cases first : parse data with
    | error problem => rw [first] at h; cases h
    | ok c =>
      cases others : chain.mapM parse with
      | error problem => rw [first, others] at h; cases h
      | ok _ =>
        rw [first, others] at h
        cases h
        exact .cons first (ih others)

section
variable {verifySignature : PublicKey → SignatureAlgorithm → Bytes → Bytes → Bool} {now : Nat}
  {anchors : List TrustAnchor}

theorem anchored_of_signedByAnchor (h : signedByAnchor verifySignature anchors c = true) :
    Anchored verifySignature anchors c := by
  obtain ⟨anchor, named, verified⟩ := any_eq_true.mp h
  obtain ⟨member, subject⟩ := mem_filter.mp named
  refine .inl ⟨anchor, member, by simpa using subject, ?_⟩
  split at verified
  · cases verified
  rename_i key parsed
  exact ⟨key, parsed, verified⟩

theorem anchored_of_isAnchor (h : isAnchor anchors c = true) : Anchored verifySignature anchors c := by
  obtain ⟨anchor, named, same⟩ := any_eq_true.mp h
  obtain ⟨member, subject⟩ := mem_filter.mp named
  exact .inr ⟨anchor, member, by simpa using subject, by simpa using same⟩

theorem inTime_of_checkTime (h : c.checkTime now = .ok ()) : c.notBefore ≤ now ∧ now ≤ c.notAfter := by
  unfold checkTime at h
  split at h
  · cases h
  split at h
  · cases h
  · omega

structure TrustedFrom (verifySignature : PublicKey → SignatureAlgorithm → Bytes → Bytes → Bool) (now : Nat)
    (anchors : List TrustAnchor) (index : Nat) (rest : List Certificate) (k : Nat) : Prop where
  inside : k < rest.length
  inTime : ∀ i ≤ k, ∀ c, rest[i]? = some c → c.notBefore ≤ now ∧ now ≤ c.notAfter
  issued : ∀ i < k, ∀ c next, rest[i]? = some c → rest[i + 1]? = some next →
    Issued verifySignature (index + i) c next
  anchored : ∀ c, rest[k]? = some c → Anchored verifySignature anchors c

theorem TrustedFrom.here {index : Nat} {c : Certificate} {rest : List Certificate}
    (time : c.notBefore ≤ now ∧ now ≤ c.notAfter) (anchored : Anchored verifySignature anchors c) :
    TrustedFrom verifySignature now anchors index (c :: rest) 0 := by
  refine ⟨by simp, ?_, by simp, ?_⟩
  · intro i _ c' found
    obtain rfl : i = 0 := by omega
    cases found
    exact time
  · intro c' found
    cases found
    exact anchored

theorem TrustedFrom.cons {k : Nat}
    (time : c.notBefore ≤ now ∧ now ≤ c.notAfter) (issued : Issued verifySignature index c next)
    (later : TrustedFrom verifySignature now anchors (index + 1) (next :: rest) k) :
    TrustedFrom verifySignature now anchors index (c :: next :: rest) (k + 1) := by
  refine ⟨Nat.succ_lt_succ later.inside, ?_, ?_, later.anchored⟩
  · intro i small c' found
    cases i with
    | zero => cases found; exact time
    | succ i => exact later.inTime i (by omega) c' found
  intro i small c' next' found foundNext
  cases i with
  | zero => cases found; cases foundNext; exact issued
  | succ i =>
    have := later.issued i (by omega) c' next' found foundNext
    rwa [Nat.add_assoc, Nat.add_comm 1 i] at this

theorem issued_of_checks (name : next.subject = c.issuer)
    (signing : next.isSigningCa = true) (short : next.pathLength.any (fun limit => decide (limit < index)) = false)
    (signed : verifySignature next.key c.algorithm c.tbs c.signature = true) :
    Issued verifySignature index c next := by
  simp only [isSigningCa, Bool.and_eq_true] at signing
  refine ⟨name, signing.1, ?_, ?_, signed⟩
  · intro _ present
    simpa [present] using signing.2
  intro limit present
  simpa [present] using short

theorem walkChain_trusted {leaf result : Certificate}
    (h : walkChain verifySignature now anchors leaf index rest = .ok result) :
    result = leaf ∧ ∃ k, TrustedFrom verifySignature now anchors index rest k := by
  induction rest generalizing index with
  | nil => cases h
  | cons c rest ih =>
    unfold walkChain at h
    cases time : c.checkTime now with
    | error _ => rw [time] at h; cases h
    | ok _ =>
      simp only [time, bind, Except.bind] at h
      have time := inTime_of_checkTime time
      split at h
      · rename_i signed
        cases h
        exact ⟨rfl, 0, .here time (anchored_of_signedByAnchor signed)⟩
      split at h
      · rename_i isIt
        cases h
        exact ⟨rfl, 0, .here time (anchored_of_isAnchor isIt)⟩
      cases rest with
      | nil => cases h
      | cons _ rest =>
        simp only [Bool.not_eq_true', ne_eq, ite_not] at h
        split at h
        · rename_i name
          split at h
          · cases h
          rename_i signing
          split at h
          · cases h
          rename_i short
          split at h
          · cases h
          rename_i signed
          obtain ⟨same, k, later⟩ := ih h
          have issued := issued_of_checks name (by simpa using signing) (by simpa using short) (by simpa using signed)
          exact ⟨same, k + 1, .cons time issued later⟩
        · cases h

end

theorem verifyChain_sound (verifySignature : PublicKey → SignatureAlgorithm → Bytes → Bytes → Bool)
    (chain : List Bytes) (host : Bytes) (now : Nat) (anchors : List TrustAnchor) (leaf : Certificate)
    (accepted : verifyChain verifySignature chain host now anchors = .ok leaf) : ∃ parsed : List Certificate,
      List.Forall₂ (fun data c => Certificate.parse data = .ok c ∧ SignedPart data c.tbs ∧ Constrained c) chain parsed ∧
      parsed[0]? = some leaf ∧ leaf.serverAuth = true ∧ NamesHost leaf.names host ∧
      ∃ k, TrustedUpTo verifySignature now anchors parsed k := by
  unfold verifyChain at accepted
  split at accepted
  · cases accepted
  cases parses : chain.mapM parse with
  | error _ => rw [parses] at accepted; cases accepted
  | ok parsed =>
    simp only [parses, bind, Except.bind] at accepted
    cases parsed with
    | nil => cases accepted
    | cons _ _ =>
      simp only [Bool.not_eq_true'] at accepted
      split at accepted
      · cases accepted
      rename_i serves
      split at accepted
      · cases accepted
      rename_i named
      obtain ⟨rfl, k, trusted⟩ := walkChain_trusted accepted
      refine ⟨_, (mapM_parse parses).imp fun _ _ h => ⟨h, parse_signedPart h, parse_constrained h⟩, rfl,
        by simpa using serves, namesHost_of_matchesHost (by simpa using named), k, trusted.inside, trusted.inTime, ?_,
        trusted.anchored⟩
      intro i small c next found foundNext
      simpa using trusted.issued i small c next found foundNext

def exampleKey (byte : UInt8) : Bytes :=
  [0x30, 0x2a, 0x30, 0x05, 0x06, 0x03, 0x2b, 0x65, 0x70, 0x03, 0x21, 0x00] ++ List.replicate 32 byte

def exampleValidity : Bytes :=
  [0x30, 0x1e, 0x17, 0x0d, 0x37, 0x30, 0x30, 0x31, 0x30, 0x31, 0x30, 0x30, 0x30, 0x30, 0x30, 0x30, 0x5a, 0x17,
    0x0d, 0x37, 0x31, 0x30, 0x31, 0x30, 0x31, 0x30, 0x30, 0x30, 0x30, 0x30, 0x30, 0x5a]

def exampleAlgorithm : Bytes := [0x30, 0x05, 0x06, 0x03, 0x2b, 0x65, 0x70]

def exampleLeaf : Bytes :=
  [0x30, 0x81, 0x83, 0x30, 0x76, 0x02, 0x01, 0x01] ++ exampleAlgorithm ++ [0x30, 0x02, 0x05, 0x00] ++
    exampleValidity ++ [0x30, 0x04, 0x05, 0x00, 0x05, 0x00] ++ exampleKey 1 ++
    [0xa3, 0x14, 0x30, 0x12, 0x30, 0x10, 0x06, 0x03, 0x55, 0x1d, 0x11, 0x04, 0x09, 0x30, 0x07, 0x82, 0x05, 0x2a,
      0x2e, 0x61, 0x2e, 0x62] ++ exampleAlgorithm ++ [0x03, 0x02, 0x00, 0x00]

def exampleAuthority : Bytes :=
  [0x30, 0x7e, 0x30, 0x71, 0x02, 0x01, 0x01] ++ exampleAlgorithm ++ [0x30, 0x00] ++ exampleValidity ++
    [0x30, 0x02, 0x05, 0x00] ++ exampleKey 2 ++
    [0xa3, 0x13, 0x30, 0x11, 0x30, 0x0f, 0x06, 0x03, 0x55, 0x1d, 0x13, 0x04, 0x08, 0x30, 0x06, 0x01, 0x01, 0xff,
      0x02, 0x01, 0x00] ++ exampleAlgorithm ++ [0x03, 0x02, 0x00, 0x00]

def exampleHost : Bytes := [0x78, 0x2e, 0x61, 0x2e, 0x62]

def exampleAnchors : List TrustAnchor := [⟨[0x30, 0x00], exampleKey 3⟩]

theorem exampleChain_trusted :
    ∃ leaf parsed k, Certificate.parse exampleLeaf = .ok leaf ∧ NamesHost leaf.names exampleHost ∧
      TrustedUpTo (fun _ _ _ _ => true) 86400 exampleAnchors parsed k := by
  have accepted : (verifyChain (fun _ _ _ _ => true) [exampleLeaf, exampleAuthority] exampleHost 86400
      exampleAnchors).isOk = true := by decide +kernel
  cases result : verifyChain (fun _ _ _ _ => true) [exampleLeaf, exampleAuthority] exampleHost 86400
      exampleAnchors with
  | error _ => rw [result] at accepted; cases accepted
  | ok leaf =>
    obtain ⟨parsed, parses, isFirst, -, named, k, trusted⟩ := verifyChain_sound _ _ _ _ _ _ result
    refine ⟨leaf, parsed, k, ?_, named, trusted⟩
    cases parses with
    | cons first _ =>
      cases isFirst
      exact first.1

end AerOS.Proof.X509
