import Hesape.Codes.Base
import Hesape.Text.Digits

/-!
# Signatures

A sender signs a delivery under each of its secrets: the sum covers the timestamp, the delivery id and
the body, joined by dots.  The Arandu dialect writes one line for each secret, `sha256=` and the sum in
hexadecimal; Standard Webhooks write one header with all of them, `v1,` and the sum in base64, under the
key that a `whsec_` secret encodes.  A validator reads the three parts from the request, looks at the
timestamp's age, and takes the request if one of the sums it carries is that of the parts under one of
its own secrets.

HMAC-SHA256 is taken as injective (`Hmac`).  No injective function has sums of one length, so the check of
a sum's length is kept as `isSum`, of which nothing is known but that every sum passes it.
-/

namespace Hesape.Webhook.Signature

open Text Codes

structure Hmac where
  sum : Bytes → Bytes → Bytes
  /-- The length is `sha256.Size`. -/
  isSum : Bytes → Bool
  isSum_sum : ∀ key message, isSum (sum key message) = true
  injective : ∀ {key message key' message' : Bytes}, sum key message = sum key' message' →
    key = key' ∧ message = message'

def dot : UInt8 := 46
def comma : UInt8 := 44
def space : UInt8 := 32

/-- A point in time, in nanoseconds; its seconds have sixty-four bits. -/
structure Instant where
  nanos : Int
  range : -2 ^ 63 ≤ nanos / 1000000000 ∧ nanos / 1000000000 < 2 ^ 63

def Instant.unix (t : Instant) : Int := t.nanos / 1000000000

/-- `Time.Sub` of a time in seconds, which saturates. -/
def Instant.sub (t : Instant) (seconds : Int) : Int :=
  max (-2 ^ 63) (min (2 ^ 63 - 1) (t.nanos - seconds * 1000000000))

/-- `strconv.FormatInt` and `strconv.ParseInt`, in decimal. -/
def formatInt (n : Int) : Bytes := ascii (Text.formatInt n)
def parseInt (s : Bytes) : Option Int := Text.parseInt (chars s)

/-! ### Headers -/

/-- The header fields that are written and read here; those of the Arandu dialect carry a prefix. -/
inductive Field
  | contentType
  | userAgent
  | deliveryID (start : String)
  | timestamp (start : String)
  | signature (start : String)
  | standardID
  | standardTimestamp
  | standardSignature
  | named (name : String)
deriving DecidableEq

/-- The values of each field. -/
abbrev Header := Field → List Bytes

namespace Header

variable (h : Header)

def get (field : Field) : Bytes := (h field).headD []
def set (field : Field) (value : Bytes) : Header := fun f => if f = field then [value] else h f
def del (field : Field) : Header := fun f => if f = field then [] else h f
def add (field : Field) (value : Bytes) : Header := fun f => if f = field then h f ++ [value] else h f

end Header

/-! ### Signing -/

inductive Dialect
  | arandu
  | standardWebhooks
  | hmac
deriving DecidableEq

/-- What one attempt signs, and with which secrets: those still signing, the current one first. -/
structure Shot where
  id : Bytes
  dialect : Dialect
  body : Bytes
  secrets : List Bytes
  signatureHeader : String := ""
  aranduHeaders : Bool := false

inductive SignError
  | standardSecret
  | secretTooShort

def minSecretBytes : Nat := 32
def maxPreviousSecrets : Nat := 5
def maxSignatures : Nat := maxPreviousSecrets + 1
def signaturePrefix : Bytes := ascii "sha256=".toList
def standardSecretPrefix : Bytes := ascii "whsec_".toList
def minStandardKeyBytes : Nat := 24
def maxStandardKeyBytes : Nat := 64

def trimPrefix (start s : Bytes) : Bytes := if start.isPrefixOf s then s.drop start.length else s

section Sign

variable (hmac : Hmac)

/-- The text the Arandu signature covers. -/
def aranduText (timestamp deliveryID body : Bytes) : Bytes := timestamp ++ dot :: (deliveryID ++ dot :: body)

/-- The text the Standard Webhooks signature covers. -/
def standardText (id timestamp body : Bytes) : Bytes := id ++ dot :: (timestamp ++ dot :: body)

/-- `Sign`. -/
def aranduSignature (secret timestamp deliveryID body : Bytes) : Bytes :=
  signaturePrefix ++ Hex.encode (hmac.sum secret (aranduText timestamp deliveryID body))

def signBody (secret body : Bytes) : Bytes := Hex.encode (hmac.sum secret body)

/-- The key a `whsec_` secret encodes. -/
def standardKey (secret : Bytes) : Option Bytes :=
  if standardSecretPrefix.isPrefixOf secret then
    (Base64.decode (secret.drop standardSecretPrefix.length)).filter fun key =>
      minStandardKeyBytes ≤ key.length && key.length ≤ maxStandardKeyBytes
  else none

/-- One signature of Standard Webhooks, under a secret's key. -/
def standardSignature (key id timestamp body : Bytes) : Bytes :=
  ascii "v1,".toList ++ Base64.encode (hmac.sum key (standardText id timestamp body))

def signStandard (secrets : List Bytes) (id : Bytes) (timestamp : Int) (body : Bytes) : Except SignError Bytes :=
  if secrets.isEmpty then .error .standardSecret
  else
    match secrets.mapM standardKey with
    | none => .error .standardSecret
    | some keys => .ok ([space].intercalate (keys.map fun key => standardSignature hmac key id (formatInt timestamp) body))

/-- The current secret. -/
def Shot.current (s : Shot) : Bytes := s.secrets.headD []

/-- The secrets still signing, from the one that retires first to the current one; a previous one that
is too short is left out. -/
def Shot.oldestFirst (s : Shot) : List Bytes :=
  (s.secrets.tail.reverse.filter fun secret => minSecretBytes ≤ secret.length) ++ [s.current]

/-- The Arandu headers. -/
def signArandu (h : Header) (s : Shot) (signedAt : Instant) (start : String) : Except SignError Header :=
  if s.current.length < minSecretBytes then .error .secretTooShort
  else
    let timestamp := formatInt signedAt.unix
    let h := ((h.set (.deliveryID start) s.id).set (.timestamp start) timestamp).del (.signature start)
    .ok (s.oldestFirst.foldl
      (fun h secret => h.add (.signature start) (aranduSignature hmac secret timestamp s.id s.body)) h)

/-- The headers every dialect writes. -/
def signContent (h : Header) (userAgent : Bytes) : Header :=
  let h := h.set .contentType (ascii "application/json".toList)
  if userAgent = [] then h else h.set .userAgent userAgent

def sign (h : Header) (s : Shot) (signedAt : Instant) (start : String) (userAgent : Bytes) : Except SignError Header :=
  let h := signContent h userAgent
  match s.dialect with
  | .standardWebhooks => do
    let signature ← signStandard hmac s.secrets s.id signedAt.unix s.body
    .ok (((h.set .standardID s.id).set .standardTimestamp (formatInt signedAt.unix)).set .standardSignature signature)
  | .hmac =>
    if s.current.length < minSecretBytes then .error .secretTooShort
    else
      let h := h.set (.named s.signatureHeader) (signBody hmac (s.oldestFirst.headD []) s.body)
      if !s.aranduHeaders then .ok h else signArandu hmac h s signedAt start
  | .arandu => signArandu hmac h s signedAt start

end Sign

/-! ### Checking -/

structure SecretSet where
  current : Bytes
  previous : List Bytes

def SecretSet.all (s : SecretSet) : List Bytes := s.current :: s.previous

def allSecrets (s : SecretSet) : List Bytes := s.all.filter (· ≠ [])

/-- Five minutes. -/
def defaultTolerance : Int := 5 * 60 * 1000000000

def toleranceOf (tolerance : Int) : Int := if tolerance = 0 then defaultTolerance else tolerance

/-- The timestamp is a number, and not further from now than the tolerance. -/
def timely (now : Instant) (tolerance : Int) (timestamp : Bytes) : Bool :=
  (parseInt timestamp).any fun seconds =>
    !(now.sub seconds > toleranceOf tolerance || now.sub seconds < -toleranceOf tolerance)

section Valid

variable (hmac : Hmac)

/-- One signature of the Arandu header. -/
def entry (e : Bytes) : Option Bytes := do
  let e := trimSpace e
  let decoded ← Hex.decode (trimPrefix signaturePrefix e)
  if signaturePrefix.isPrefixOf e && hmac.isSum decoded then some decoded else none

/-- The sums an Arandu signature header carries, unless one is malformed. -/
def provided (signature : Bytes) : Option (List Bytes) := (signature.splitOn comma).mapM (entry hmac)

/-- The sum that is expected under a secret. -/
def expected (secret timestamp deliveryID body : Bytes) : Bytes :=
  (Hex.decode (trimPrefix signaturePrefix (aranduSignature hmac secret timestamp deliveryID body))).getD []

def verify (secrets : SecretSet) (timestamp deliveryID body signature : Bytes) : Bool :=
  if maxSignatures ≤ signature.count comma then false
  else
    match provided hmac signature with
    | none => false
    | some sums => secrets.all.any fun secret =>
        secret ≠ [] && sums.any fun sum => sum = expected hmac secret timestamp deliveryID body

/-- The Arandu validator; the prefix is the sender's. -/
structure Arandu where
  headerPrefix : String
  tolerance : Int

def aranduPrefix : String := "X-Arandu"

def Arandu.start (v : Arandu) : String := if v.headerPrefix = "" then aranduPrefix else v.headerPrefix

def Arandu.valid (v : Arandu) (now : Instant) (h : Header) (body : Bytes) (secrets : SecretSet) : Bool :=
  timely now v.tolerance (h.get (.timestamp v.start)) &&
    verify hmac secrets (h.get (.timestamp v.start)) (h.get (.deliveryID v.start)) body
      ([comma].intercalate (h (.signature v.start)))

/-- The sums a Standard Webhooks signature header carries; whatever else is in it is passed over. -/
def given (signature : Bytes) : List Bytes :=
  (fields signature).filterMap fun e =>
    match e.splitOn comma with
    | version :: part :: parts =>
      if version = ascii "v1".toList then Base64.decode ([comma].intercalate (part :: parts)) else none
    | _ => none

structure StandardWebhooks where
  tolerance : Int

def StandardWebhooks.valid (v : StandardWebhooks) (now : Instant) (h : Header) (body : Bytes) (secrets : SecretSet) :
    Bool :=
  h.get .standardID ≠ [] && timely now v.tolerance (h.get .standardTimestamp) &&
    (allSecrets secrets).any fun secret => (standardKey secret).any fun key =>
      (given (h.get .standardSignature)).any fun sum =>
        sum = hmac.sum key (standardText (h.get .standardID) (h.get .standardTimestamp) body)

end Valid

end Hesape.Webhook.Signature
