import AerOS.Model.Der

/-!
# X.509 certificates (`kernel/src/tls/x509.rs`)

Parsing, hostname matching and chain validation. The check of one signature is a parameter of `verifyChain`;
everything else is translated from the source.
-/

namespace AerOS.X509
open Der

def maxChain : Nat := 8

inductive Error where
  | parse
  | notYetValid
  | expired
  | hostName
  | untrusted
  | signature
  | constraint
  | unsupportedAlgorithm
  | criticalExtension
deriving DecidableEq, Repr

inductive Curve where
  | p256
  | p384
deriving DecidableEq

inductive HashAlg where
  | sha256
  | sha384
  | sha512
deriving DecidableEq

inductive PublicKey where
  | rsa (modulus exponent : Bytes)
  | ec (curve : Curve) (point : Bytes)
  | ed25519 (key : Bytes)
deriving DecidableEq

inductive SignatureAlgorithm where
  | rsaPkcs1 (hash : HashAlg)
  | rsaPss (hash : HashAlg)
  | ecdsa (hash : HashAlg)
  | ed25519
deriving DecidableEq

structure Certificate where
  tbs : Bytes
  issuer : Bytes
  subject : Bytes
  notBefore : Nat
  notAfter : Nat
  key : PublicKey
  spki : Bytes
  algorithm : SignatureAlgorithm
  signature : Bytes
  isCa : Bool
  pathLength : Option Nat
  keyUsage : Option UInt8
  serverAuth : Bool
  names : Bytes
deriving DecidableEq

structure TrustAnchor where
  subject : Bytes
  spki : Bytes

def oidRsa : Bytes := [0x2a, 0x86, 0x48, 0x86, 0xf7, 0x0d, 0x01, 0x01, 0x01]
def oidRsaSha256 : Bytes := [0x2a, 0x86, 0x48, 0x86, 0xf7, 0x0d, 0x01, 0x01, 0x0b]
def oidRsaSha384 : Bytes := [0x2a, 0x86, 0x48, 0x86, 0xf7, 0x0d, 0x01, 0x01, 0x0c]
def oidRsaSha512 : Bytes := [0x2a, 0x86, 0x48, 0x86, 0xf7, 0x0d, 0x01, 0x01, 0x0d]
def oidEcKey : Bytes := [0x2a, 0x86, 0x48, 0xce, 0x3d, 0x02, 0x01]
def oidP256 : Bytes := [0x2a, 0x86, 0x48, 0xce, 0x3d, 0x03, 0x01, 0x07]
def oidP384 : Bytes := [0x2b, 0x81, 0x04, 0x00, 0x22]
def oidEcdsaSha256 : Bytes := [0x2a, 0x86, 0x48, 0xce, 0x3d, 0x04, 0x03, 0x02]
def oidEcdsaSha384 : Bytes := [0x2a, 0x86, 0x48, 0xce, 0x3d, 0x04, 0x03, 0x03]
def oidEcdsaSha512 : Bytes := [0x2a, 0x86, 0x48, 0xce, 0x3d, 0x04, 0x03, 0x04]
def oidEd25519 : Bytes := [0x2b, 0x65, 0x70]

def oidBasicConstraints : Bytes := [0x55, 0x1d, 0x13]
def oidKeyUsage : Bytes := [0x55, 0x1d, 0x0f]
def oidAltName : Bytes := [0x55, 0x1d, 0x11]
def oidNameConstraints : Bytes := [0x55, 0x1d, 0x1e]
def oidExtKeyUsage : Bytes := [0x55, 0x1d, 0x25]
def oidServerAuth : Bytes := [0x2b, 0x06, 0x01, 0x05, 0x05, 0x07, 0x03, 0x01]
def oidAnyEku : Bytes := [0x55, 0x1d, 0x25, 0x00]

def harmlessExtensions : List Bytes :=
  [[0x55, 0x1d, 0x0e], [0x55, 0x1d, 0x23], [0x55, 0x1d, 0x1f], [0x55, 0x1d, 0x20], [0x55, 0x1d, 0x21],
    [0x55, 0x1d, 0x24], [0x55, 0x1d, 0x36], [0x55, 0x1d, 0x12],
    [0x2b, 0x06, 0x01, 0x05, 0x05, 0x07, 0x01, 0x01], [0x2b, 0x06, 0x01, 0x05, 0x05, 0x07, 0x01, 0x0b],
    [0x2b, 0x06, 0x01, 0x04, 0x01, 0xd6, 0x79, 0x02, 0x04, 0x02]]

def algorithmFrom (id : Bytes) : Option SignatureAlgorithm :=
  if id = oidRsaSha256 then some (.rsaPkcs1 .sha256)
  else if id = oidRsaSha384 then some (.rsaPkcs1 .sha384)
  else if id = oidRsaSha512 then some (.rsaPkcs1 .sha512)
  else if id = oidEcdsaSha256 then some (.ecdsa .sha256)
  else if id = oidEcdsaSha384 then some (.ecdsa .sha384)
  else if id = oidEcdsaSha512 then some (.ecdsa .sha512)
  else if id = oidEd25519 then some .ed25519
  else none

def parseRsaKey (key : Bytes) : Option PublicKey := do
  let (body, _) ← (Reader.new key).expect sequence
  let (modulus, numbers) ← (Reader.new body).expect integer
  let modulus ← unsignedInteger modulus
  let (exponent, _) ← numbers.expect integer
  let exponent ← unsignedInteger exponent
  return .rsa modulus exponent

def parseSpki (spki : Bytes) : Option PublicKey := do
  let (body, outer) ← (Reader.new spki).expect sequence
  let (algorithm, fields) ← (Reader.new body).expect sequence
  let (bits, fields) ← fields.expect bitString
  guard (fields.isEmpty ∧ outer.isEmpty ∧ bits.head? = some 0)
  let key := bits.drop 1
  let (id, parts) ← (Reader.new algorithm).expect oid
  if id = oidRsa then parseRsaKey key
  else if id = oidEcKey then do
    let (curve, _) ← parts.expect oid
    if curve = oidP256 then return .ec .p256 key
    else if curve = oidP384 then return .ec .p384 key
    else failure
  else if id = oidEd25519 ∧ key.length = 32 then return .ed25519 key
  else failure

def unixTime (year month day hour minute second : Int) : Option Nat :=
  if ¬(1 ≤ month ∧ month ≤ 12) ∨ ¬(1 ≤ day ∧ day ≤ 31) ∨ ¬(0 ≤ hour ∧ hour ≤ 23) ∨
      ¬(0 ≤ minute ∧ minute ≤ 59) ∨ ¬(0 ≤ second ∧ second ≤ 60) ∨ year < 1970 then none
  else
    let shifted := if month ≤ 2 then year - 1 else year
    let era := shifted / 400
    let yearOfEra := shifted - era * 400
    let monthIndex := (month + 9) % 12
    let dayOfYear := (153 * monthIndex + 2) / 5 + day - 1
    let dayOfEra := yearOfEra * 365 + yearOfEra / 4 - yearOfEra / 100 + dayOfYear
    let days := era * 146097 + dayOfEra - 719468
    some ((days * 86400 + hour * 3600 + minute * 60 + second) % 2 ^ 64).toNat

def isAsciiDigit (byte : UInt8) : Bool := decide (0x30 ≤ byte ∧ byte ≤ 0x39)

def digitsFrom : Int → Bytes → Option Int
  | value, [] => some value
  | value, byte :: rest =>
    if isAsciiDigit byte then digitsFrom (value * 10 + (byte - 0x30).toNat) rest else none

def digits (text : Bytes) (first count : Nat) : Option Int := do
  let part ← getRange text first (first + count)
  digitsFrom 0 part

def parseTime (element : Tlv) : Option Nat := do
  let text := element.value
  if element.tag = utcTime ∧ text.length = 13 ∧ text[12]? = some 0x5a then
    let two ← digits text 0 2
    let year := if 50 ≤ two then 1900 + two else 2000 + two
    unixTime year (← digits text 2 2) (← digits text 4 2) (← digits text 6 2) (← digits text 8 2)
      (← digits text 10 2)
  else if element.tag = generalizedTime ∧ text.length = 15 ∧ text[14]? = some 0x5a then
    unixTime (← digits text 0 4) (← digits text 4 2) (← digits text 6 2) (← digits text 8 2)
      (← digits text 10 2) (← digits text 12 2)
  else failure

structure Extensions where
  isCa : Bool
  pathLength : Option Nat
  keyUsage : Option UInt8
  serverAuth : Bool
  names : Bytes
  criticalProblem : Option Error
deriving DecidableEq

def Extensions.start : Extensions := ⟨false, none, none, true, [], none⟩

def readFlag (reader : Reader) : Bool × Reader :=
  match reader.expect boolean with
  | some (value, rest) => (value != [0], rest)
  | none => (false, reader)

def readPathLength (reader : Reader) : Option Nat := do
  let (value, _) ← reader.expect integer
  let bytes ← unsignedInteger value
  guard (bytes.length ≤ 2)
  return bytes.foldl (fun sum byte => sum <<< 8 ||| byte.toNat) 0

def readUsage (found : Bool) (usages : Reader) : Option (Bool × Reader) := do
  let (usage, usages) ← usages.expect oid
  return (if usage = oidServerAuth ∨ usage = oidAnyEku then true else found, usages)

def applyExtension (e : Extensions) (id : Bytes) (critical : Bool) (value : Bytes) : Option Extensions :=
  if id = oidBasicConstraints then do
    let (body, _) ← (Reader.new value).expect sequence
    let (isCa, body) := readFlag (Reader.new body)
    return { e with isCa := isCa, pathLength := readPathLength body }
  else if id = oidKeyUsage then do
    let (bits, _) ← (Reader.new value).expect bitString
    let usage ← bits[1]?
    return { e with keyUsage := some usage }
  else if id = oidAltName then do
    let (names, _) ← (Reader.new value).expect sequence
    return { e with names := names }
  else if id = oidExtKeyUsage then do
    let (usages, _) ← (Reader.new value).expect sequence
    let serverAuth ← whileNonEmpty readUsage usages.length false (.new usages)
    return { e with serverAuth := serverAuth }
  else if id = oidNameConstraints ∨ critical ∧ id ∉ harmlessExtensions then
    some { e with criticalProblem := some .criticalExtension }
  else some e

def readExtension (e : Extensions) (list : Reader) : Option (Extensions × Reader) := do
  let (extension, list) ← list.expect sequence
  let (id, extension) ← (Reader.new extension).expect oid
  let (critical, extension) := readFlag extension
  let (value, _) ← extension.expect octetString
  let e ← applyExtension e id critical value
  return (e, list)

def readField (e : Extensions) (fields : Reader) : Option (Extensions × Reader) := do
  let (element, fields) ← fields.read
  if element.tag ≠ 0xa3 then return (e, fields)
  else
    let (list, _) ← (Reader.new element.value).expect sequence
    let e ← whileNonEmpty readExtension list.length e (.new list)
    return (e, fields)

def skipVersion (fields : Reader) : Option Reader :=
  if fields.peekTag = some 0xa0 then do
    let (_, fields) ← fields.read
    return fields
  else some fields

def readEnvelope (data : Bytes) : Option (Tlv × Bytes × Bytes) := do
  let (body, top) ← (Reader.new data).expect sequence
  guard top.isEmpty
  let (tbs, outer) ← (Reader.new body).expectTlv sequence
  let (outerAlgorithm, outer) ← outer.expect sequence
  let (bits, outer) ← outer.expect bitString
  guard (outer.isEmpty ∧ bits.head? = some 0)
  return (tbs, outerAlgorithm, bits)

structure Fields where
  issuer : Bytes
  notBefore : Nat
  notAfter : Nat
  subject : Bytes
  spki : Bytes
  extensions : Extensions
deriving DecidableEq

def readFields (tbs outerAlgorithm : Bytes) : Option Fields := do
  let fields ← skipVersion (.new tbs)
  let (_, fields) ← fields.expect integer
  let (innerAlgorithm, fields) ← fields.expect sequence
  guard (innerAlgorithm = outerAlgorithm)
  let (issuer, fields) ← fields.expectTlv sequence
  let (validity, fields) ← fields.expect sequence
  let (first, validity) ← (Reader.new validity).read
  let notBefore ← parseTime first
  let (second, _) ← validity.read
  let notAfter ← parseTime second
  let (subject, fields) ← fields.expectTlv sequence
  let (spki, fields) ← fields.expectTlv sequence
  let e ← whileNonEmpty readField tbs.length .start fields
  return ⟨issuer.raw, notBefore, notAfter, subject.raw, spki.raw, e⟩

def parseInner (data : Bytes) : Option (Except Error Certificate) := do
  let (tbs, outerAlgorithm, bits) ← readEnvelope data
  let fields ← readFields tbs.value outerAlgorithm
  let e := fields.extensions
  match e.criticalProblem with
  | some problem => return .error problem
  | none =>
    let (id, _) ← (Reader.new outerAlgorithm).expect oid
    match algorithmFrom id, parseSpki fields.spki with
    | some algorithm, some key =>
      return .ok
        { tbs := tbs.raw, issuer := fields.issuer, subject := fields.subject, notBefore := fields.notBefore,
          notAfter := fields.notAfter, key := key, spki := fields.spki, algorithm := algorithm,
          signature := bits.drop 1, isCa := e.isCa, pathLength := e.pathLength, keyUsage := e.keyUsage,
          serverAuth := e.serverAuth, names := e.names }
    | _, _ => return .error .unsupportedAlgorithm

def Certificate.parse (data : Bytes) : Except Error Certificate :=
  (parseInner data).getD (.error .parse)

namespace Certificate

def checkTime (c : Certificate) (now : Nat) : Except Error Unit :=
  if now < c.notBefore then .error .notYetValid
  else if c.notAfter < now then .error .expired
  else .ok ()

def isSigningCa (c : Certificate) : Bool :=
  c.isCa && c.keyUsage.all fun usage => usage &&& 0x04 != 0

end Certificate

def parseOctet (part : Bytes) : Option UInt8 := do
  let value ← digitsFrom 0 part
  guard (value ≤ 255)
  return UInt8.ofNat value.toNat

def parseParts : Bytes → List Bytes → Option Bytes
  | octets, [] => if octets.length = 4 then some octets else none
  | octets, part :: parts =>
    if octets.length = 4 ∨ part.isEmpty ∨ 3 < part.length ∨ !part.all isAsciiDigit then none
    else do
      let octet ← parseOctet part
      parseParts (octets ++ [octet]) parts

def parseIpv4 (host : Bytes) : Option Bytes := parseParts [] (host.splitOn 0x2e)

def toAsciiLower (byte : UInt8) : UInt8 := if 0x41 ≤ byte ∧ byte ≤ 0x5a then byte + 0x20 else byte

def eqIgnoreAsciiCase (a b : Bytes) : Bool := a.map toAsciiLower == b.map toAsciiLower

def withoutFinalDot (host : Bytes) : Bytes :=
  if host.getLast? = some 0x2e then host.dropLast else host

def dnsPatternMatches (pattern host : Bytes) : Bool :=
  match pattern with
  | 0x2a :: 0x2e :: rest =>
    if rest.count 0x2e < 1 ∨ rest.contains 0x2a then false
    else match host.findIdx? (· == 0x2e) with
      | none => false
      | some dot => decide (0 < dot) && eqIgnoreAsciiCase (host.drop (dot + 1)) rest
  | _ => !pattern.contains 0x2a && eqIgnoreAsciiCase pattern host

def dnsNameMatches (pattern host : Bytes) : Bool :=
  if host.isEmpty || pattern.isEmpty then false else dnsPatternMatches pattern (withoutFinalDot host)

def nameMatches (name : Tlv) (host : Bytes) : Bool :=
  match parseIpv4 host with
  | some octets => name.tag == 0x87 && name.value == octets
  | none => name.tag == 0x82 && dnsNameMatches name.value host

def anyName (host : Bytes) : Nat → Reader → Bool
  | 0, _ => false
  | turns + 1, list =>
    match list.read with
    | some (name, list) => if nameMatches name host then true else anyName host turns list
    | none => false

def Certificate.matchesHost (c : Certificate) (host : Bytes) : Bool :=
  anyName host c.names.length (.new c.names)

section
variable (verifySignature : PublicKey → SignatureAlgorithm → Bytes → Bytes → Bool)

def anchorsNamed (anchors : List TrustAnchor) (name : Bytes) : List TrustAnchor :=
  anchors.filter fun anchor => anchor.subject == name

def signedByAnchor (anchors : List TrustAnchor) (current : Certificate) : Bool :=
  (anchorsNamed anchors current.issuer).any fun anchor =>
    match parseSpki anchor.spki with
    | none => false
    | some key => verifySignature key current.algorithm current.tbs current.signature

def isAnchor (anchors : List TrustAnchor) (current : Certificate) : Bool :=
  (anchorsNamed anchors current.subject).any fun anchor => anchor.spki == current.spki

def walkChain (now : Nat) (anchors : List TrustAnchor) (leaf : Certificate) :
    Nat → List Certificate → Except Error Certificate
  | _, [] => .error .untrusted
  | index, current :: rest => do
    current.checkTime now
    if signedByAnchor verifySignature anchors current then return leaf
    else if isAnchor anchors current then return leaf
    else match rest with
      | [] => throw .untrusted
      | next :: _ =>
        if next.subject ≠ current.issuer then throw .untrusted
        else if !next.isSigningCa then throw .constraint
        else if next.pathLength.any fun limit => decide (limit < index) then throw .constraint
        else if !verifySignature next.key current.algorithm current.tbs current.signature then
          throw .signature
        else walkChain now anchors leaf (index + 1) rest

def verifyChain (chain : List Bytes) (host : Bytes) (now : Nat) (anchors : List TrustAnchor) :
    Except Error Certificate := do
  if chain.isEmpty || decide (maxChain < chain.length) then throw .parse
  else
    let parsed ← chain.mapM Certificate.parse
    match parsed with
    | [] => throw .parse
    | leaf :: _ =>
      if !leaf.serverAuth then throw .constraint
      else if !leaf.matchesHost host then throw .hostName
      else walkChain verifySignature now anchors leaf 0 parsed

end

end AerOS.X509
