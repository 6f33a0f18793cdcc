import AerOS.Model.X509

/-!
# What an accepted chain is
-/

namespace AerOS.X509
open Der

inductive Entry : Reader → Tlv → Prop
  | head {reader rest : Reader} {element : Tlv} (h : reader.read = some (element, rest)) : Entry reader element
  | tail {reader rest : Reader} {first element : Tlv} (h : reader.read = some (first, rest))
      (later : Entry rest element) : Entry reader element

/-- `tbs` stands, byte for byte, in `data` as the first element of its outermost sequence. -/
def SignedPart (data tbs : Bytes) : Prop :=
  ∃ header after outer rest, data = header ++ (tbs ++ after) ∧
    (Reader.new data).expect sequence = some (tbs ++ after, outer) ∧ outer.isEmpty = true ∧
    ∃ element, (Reader.new (tbs ++ after)).expectTlv sequence = some (element, rest) ∧ element.raw = tbs

/-- The signed part has an extension with this id and this value. -/
def Carries (tbs id value : Bytes) : Prop :=
  ∃ whole field extension list inner rest₁ rest₂ rest₃, (Reader.new tbs).read = some (whole, rest₁) ∧
    Entry (.new whole.value) field ∧ field.tag = 0xa3 ∧
    (Reader.new field.value).expect sequence = some (list, rest₂) ∧ Entry (.new list) extension ∧
    (Reader.new extension.value).expect oid = some (id, inner) ∧
    (readFlag inner).2.expect octetString = some (value, rest₃)

def constraintsIn (value : Bytes) : Option (Bool × Option Nat) := do
  let (body, _) ← (Reader.new value).expect sequence
  let (isCa, body) := readFlag (Reader.new body)
  return (isCa, readPathLength body)

def usageIn (value : Bytes) : Option UInt8 := do
  let (bits, _) ← (Reader.new value).expect bitString
  bits[1]?

/-- What a certificate may sign stands in extensions of its signed part, and a key usage there is not overlooked. -/
structure Constrained (c : Certificate) : Prop where
  authority : c.isCa = true →
    ∃ value, Carries c.tbs oidBasicConstraints value ∧ constraintsIn value = some (true, c.pathLength)
  usage : ∀ usage, c.keyUsage = some usage →
    ∃ value, Carries c.tbs oidKeyUsage value ∧ usageIn value = some usage
  limited : ∀ value, Carries c.tbs oidKeyUsage value → c.keyUsage ≠ none

def SameText (a b : Bytes) : Prop := a.map toAsciiLower = b.map toAsciiLower

/-- A name of a certificate covers a host: letter by letter, or with `*` for the host's first label. -/
inductive DnsMatches (pattern host : Bytes) : Prop
  | whole (plain : 0x2a ∉ pattern) (same : SameText pattern (withoutFinalDot host))
  | wildcard (rest label domain : Bytes) (star : pattern = 0x2a :: 0x2e :: rest) (dotted : 0x2e ∈ rest)
      (plain : 0x2a ∉ rest) (split : withoutFinalDot host = label ++ 0x2e :: domain) (nonempty : label ≠ [])
      (single : 0x2e ∉ label) (same : SameText domain rest)

/-- An entry of the subject alternative names stands for the host: an address for an address, else a name. -/
def NamesHost (names host : Bytes) : Prop :=
  ∃ name, Entry (.new names) name ∧
    (name.tag = 0x87 ∧ parseIpv4 host = some name.value ∨
      name.tag = 0x82 ∧ parseIpv4 host = none ∧ host ≠ [] ∧ DnsMatches name.value host)

section
variable (verifySignature : PublicKey → SignatureAlgorithm → Bytes → Bytes → Bool)

/-- The certificate after position `i` of a chain may have issued the one at `i`, and signed it. -/
structure Issued (i : Nat) (c issuer : Certificate) : Prop where
  name : issuer.subject = c.issuer
  isCa : issuer.isCa = true
  usage : ∀ usage, issuer.keyUsage = some usage → usage &&& 0x04 ≠ 0
  length : ∀ limit, issuer.pathLength = some limit → i ≤ limit
  signed : verifySignature issuer.key c.algorithm c.tbs c.signature = true

def Anchored (anchors : List TrustAnchor) (c : Certificate) : Prop :=
  (∃ anchor ∈ anchors, anchor.subject = c.issuer ∧
    ∃ key, parseSpki anchor.spki = some key ∧ verifySignature key c.algorithm c.tbs c.signature = true) ∨
  ∃ anchor ∈ anchors, anchor.subject = c.subject ∧ anchor.spki = c.spki

/-- The certificates up to position `k` are valid now, each issued by the next, the last one anchored. -/
structure TrustedUpTo (now : Nat) (anchors : List TrustAnchor) (parsed : List Certificate) (k : Nat) : Prop where
  inside : k < parsed.length
  inTime : ∀ i ≤ k, ∀ c, parsed[i]? = some c → c.notBefore ≤ now ∧ now ≤ c.notAfter
  issued : ∀ i < k, ∀ c next, parsed[i]? = some c → parsed[i + 1]? = some next → Issued verifySignature i c next
  anchored : ∀ c, parsed[k]? = some c → Anchored verifySignature anchors c

end

end AerOS.X509
