import Zinc.Network.Session

/-! What a cookie that comes back is worth. The bytes that are signed determine the
data, the nonce and the lifetime, since each string has its length in front; so a
cookie that passes the check was stored by the server, up to the way in which an
integer of a JSON document is read as a `long`. -/

namespace Zinc.Network

open Throw Buffer Buffer.ByteBuffer JsonText ZincConnection

variable {host : Host} {moment : Moment} {c c' : ZincConnection}

/-! ### The signed bytes -/

/-- A string with its length in front. -/
def prefixed (bytes : Bytes) : Bytes := intBytes (toInt bytes.length) ++ bytes

def signedBytes (data nonce : Bytes) (lifetime : BitVec 64) : Bytes :=
  prefixed data ++ (prefixed nonce ++ numericBytes true (k := 8) lifetime)

/-- A number in front of two words is the same if the words are. -/
theorem intBytes_append_inj {a b : BitVec 32} {v w : Bytes} (h : intBytes a ++ v = intBytes b ++ w) :
    a = b ∧ v = w := by
  have hbytes : ∀ value : BitVec 32, intBytes value = Base128.encode 5 value.toNat :=
    fun value => varNumericBytes_eq (n := 5) (by decide) value
  have hlt : ∀ value : BitVec 32, value.toNat < 128 ^ 5 :=
    fun value => lt_trans value.isLt (by decide)
  rw [hbytes, hbytes] at h
  have ha := (Base128.decode_encode_append (by decide) (hlt a) v).1
  have hb := (Base128.decode_encode_append (by decide) (hlt b) w).1
  rw [h, hb] at ha
  have hab : a = b := BitVec.eq_of_toNat_eq (Option.some.inj ha).symm
  rw [hab] at h
  exact ⟨hab, List.append_cancel_left h⟩

theorem length_prefixed_le (bytes : Bytes) : (prefixed bytes).length ≤ bytes.length + 5 := by
  have hsize := size_toNat_le (toInt bytes.length)
  rw [← length_intBytes] at hsize
  rw [prefixed, List.length_append]
  omega

theorem prefixed_append_inj {a b v w : Bytes} (ha : a.length < 2 ^ 32) (hb : b.length < 2 ^ 32)
    (h : prefixed a ++ v = prefixed b ++ w) : a = b ∧ v = w := by
  rw [prefixed, prefixed, List.append_assoc, List.append_assoc] at h
  rcases intBytes_append_inj h with ⟨hlength, hrest⟩
  have hlengths : a.length = b.length := by
    have hnat := congrArg BitVec.toNat hlength
    rwa [toInt, toInt, BitVec.toNat_ofNat, BitVec.toNat_ofNat, Nat.mod_eq_of_lt ha,
      Nat.mod_eq_of_lt hb] at hnat
  exact List.append_inj hrest hlengths

/-- The signed bytes determine what was signed. -/
theorem signedBytes_inj {data nonce data' nonce' : Bytes} {lifetime lifetime' : BitVec 64}
    (hsmall : data'.length + nonce'.length < 2 ^ 30)
    (h : signedBytes data nonce lifetime = signedBytes data' nonce' lifetime') :
    data = data' ∧ nonce = nonce' ∧ lifetime = lifetime' := by
  have hlength := congrArg List.length h
  simp only [signedBytes, List.length_append, length_numericBytes] at hlength
  have hdata' := length_prefixed_le data'
  have hnonce' := length_prefixed_le nonce'
  have hdata : data.length ≤ (prefixed data).length := by rw [prefixed, List.length_append]; omega
  have hnonce : nonce.length ≤ (prefixed nonce).length := by rw [prefixed, List.length_append]; omega
  rcases prefixed_append_inj (by omega) (by omega) h with ⟨rfl, hrest⟩
  rcases prefixed_append_inj (by omega) (by omega) hrest with ⟨rfl, hlast⟩
  refine ⟨rfl, rfl, ?_⟩
  rw [← numericOfBytes_numericBytes true (k := 8) lifetime, hlast, numericOfBytes_numericBytes]

theorem produces_signed (data nonce : Bytes) (lifetime : BitVec 64) :
    Produces (Fresh true) (do
      writeString data
      writeString nonce
      writeNumeric (k := 8) lifetime) (signedBytes data nonce lifetime) :=
  ((writable_fresh true).writeVarBytes data).bind
    (((writable_fresh true).writeVarBytes nonce).bind ((writable_fresh true).writeNumeric (k := 8) lifetime))

/-- Written and read again byte by byte. -/
theorem signed_eq (data nonce : Bytes) (lifetime : BitVec 64) :
    ∃ buffer rest, (do
      writeString data
      writeString nonce
      writeNumeric (k := 8) lifetime : Action Unit) .new = .ok ((), buffer) ∧
      readArray readUnsignedByte buffer.size buffer = .ok (signedBytes data nonce lifetime, rest) := by
  rcases fresh_of_produces (produces_signed data nonce lifetime) fresh_new with ⟨buffer, hwrite, hfresh⟩
  rcases readArray_fresh hfresh with ⟨rest, hread⟩
  exact ⟨buffer, rest, hwrite, hread⟩

theorem Cookie.dataToSign_eq (cookie : Cookie) : cookie.dataToSign =
    .ok (signedBytes cookie.data cookie.nonce (BitVec.ofInt 64 cookie.lifetime)) := by
  rcases signed_eq cookie.data cookie.nonce (BitVec.ofInt 64 cookie.lifetime) with
    ⟨buffer, rest, hwrite, hread⟩
  rw [dataToSign, hwrite, ok_bind]
  simp only [hread, ok_bind, pure_eq]

/-- A document with the members of a cookie. -/
def cookieJson (lifetime data signature nonce : Json) : Json := .ofMembers [
  (utf8 "lifetime", lifetime), (utf8 "data", data), (utf8 "signature", signature),
  (utf8 "nonce", nonce)]

theorem member_cookieJson (key : Bytes) (lifetime data signature nonce : Json) :
    (cookieJson lifetime data signature nonce).member key =
      if utf8 "nonce" = key then some nonce else if utf8 "signature" = key then some signature
      else if utf8 "data" = key then some data else if utf8 "lifetime" = key then some lifetime
      else none := by
  simp only [cookieJson, Json.ofMembers, List.foldl_cons, List.foldl_nil, Json.member_object,
    Json.lookup_insert, Json.lookup]

theorem members_cookieJson (lifetime data signature nonce : Json) :
    (cookieJson lifetime data signature nonce).member (utf8 "lifetime") = some lifetime ∧
    (cookieJson lifetime data signature nonce).member (utf8 "data") = some data ∧
    (cookieJson lifetime data signature nonce).member (utf8 "signature") = some signature ∧
    (cookieJson lifetime data signature nonce).member (utf8 "nonce") = some nonce := by
  simp [member_cookieJson]

/-- The document of a cookie with its signature. -/
def Cookie.document (host : Host) (cookie : Cookie) : Json :=
  let bytes := signedBytes cookie.data cookie.nonce (toLong cookie.lifetime)
  cookieJson (.integer cookie.lifetime) (.string cookie.data)
    (.string (host.base64.encode (host.cookieRSA.sign bytes))) (.string cookie.nonce)

theorem Cookie.json_eq (host : Host) (cookie : Cookie) :
    cookie.json host = .ok (cookie.document host) := by
  rw [Cookie.json, Cookie.dataToSign_eq]
  rfl

/-! ### What the check accepts -/

/-- A document that passes the check, with its members and the number that is
verified. -/
structure CookieAccepted (host : Host) (now : ℤ) (json lifetime : Json)
    (data nonce signature : Bytes) (value : BitVec 64) : Prop where
  lifetime_eq : json.member (utf8 "lifetime") = some lifetime
  data_eq : json.member (utf8 "data") = some (.string data)
  nonce_eq : json.member (utf8 "nonce") = some (.string nonce)
  signature_eq : json.member (utf8 "signature") = some (.string signature)
  alive : host.json.lessLong now lifetime = false
  value_eq : host.json.getLong lifetime = .ok value
  verified : host.cookieRSA.verify (signedBytes data nonce value)
    (host.base64.decode signature) = true

variable {now : ℤ} {json lifetime : Json} {data nonce signature : Bytes} {value : BitVec 64}
  {errorBuffer buffer : ByteBuffer}

/-- The answer to a cookie: the flag and the payload. -/
def cookieAnswer (payload : Bytes) : Bytes := 1 :: prefixed payload

theorem produces_cookieAnswer (payload : Bytes) : Produces (Fresh true) (do
    writeByte 1
    writePrefixedArray payload writeUnsignedByte) (cookieAnswer payload) :=
  ((writable_fresh true).writeByte 1).bind (produces_writePrefixedBytes payload)

theorem CookieAccepted.checkCookie
    (h : CookieAccepted host now json lifetime data nonce signature value) (errorBuffer : ByteBuffer) :
    ∃ buffer, checkCookie host now errorBuffer json = .ok buffer ∧
      Fresh true buffer (cookieAnswer (host.cookieRSA.decrypt (host.base64.decode data))) := by
  rcases signed_eq data nonce value with ⟨signed, rest, hwrite, hread⟩
  rcases fresh_of_produces (produces_cookieAnswer (host.cookieRSA.decrypt (host.base64.decode data)))
    fresh_new with ⟨buffer, hanswer, hfresh⟩
  refine ⟨buffer, ?_, hfresh⟩
  unfold ZincConnection.checkCookie
  simp only [h.lifetime_eq, h.data_eq, h.nonce_eq, h.signature_eq, h.alive, Bool.false_eq_true,
    if_false, getString, Json.asString, orThrow, ok_bind, h.value_eq, hwrite, hread, h.verified,
    if_true, hanswer, pure_eq]

theorem getString_eq_ok (h : getString json = .ok data) : json = .string data := by
  cases json with
  | string value =>
    cases h
    rfl
  | _ => cases h

theorem checkCookie_eq_ok (h : checkCookie host now errorBuffer json = .ok buffer) :
    buffer = errorBuffer ∨ ∃ lifetime data nonce signature value,
      CookieAccepted host now json lifetime data nonce signature value := by
  unfold checkCookie at h
  split at h
  next signatureJson lifetime nonceJson dataJson hsignature hlifetime hnonce hdata =>
    split at h
    · exact .inl (Except.ok.inj h).symm
    next halive =>
      rcases bind_eq_ok.mp h with ⟨data, hdataString, h⟩
      rcases bind_eq_ok.mp h with ⟨nonce, hnonceString, h⟩
      rcases bind_eq_ok.mp h with ⟨value, hvalue, h⟩
      rcases signed_eq data nonce value with ⟨signed, rest, hwrite, hread⟩
      simp only [hwrite, hread, ok_bind] at h
      rcases bind_eq_ok.mp h with ⟨signature, hsignatureString, h⟩
      rw [getString_eq_ok hdataString] at hdata
      rw [getString_eq_ok hnonceString] at hnonce
      rw [getString_eq_ok hsignatureString] at hsignature
      by_cases hverified : host.cookieRSA.verify (signedBytes data nonce value)
        (host.base64.decode signature) = true
      · exact .inr ⟨lifetime, data, nonce, signature, value, hlifetime, hdata, hnonce, hsignature,
          Bool.not_eq_true _ ▸ halive, hvalue, hverified⟩
      · rw [if_neg hverified] at h
        exact .inl (Except.ok.inj h).symm
  next => exact .inl (Except.ok.inj h).symm

theorem catchException_eq_ok {α : Type} {handler a : α} {x : Except Fault α}
    (h : catchException handler x = .ok a) : a = handler ∨ x = .ok a := by
  unfold catchException at h
  split at h
  · exact .inl (Except.ok.inj h).symm
  · exact .inl (Except.ok.inj h).symm
  · exact .inl (Except.ok.inj h).symm
  · exact .inr h

theorem extractCookieData_eq {raw rest : ByteBuffer} {text : Bytes}
    (hraw : readString raw = .ok (text, rest)) : extractCookieData host now raw =
      catchException (ofBytes [0]) (do
        let json ← orThrow (host.json.parse text)
        checkCookie host now (ofBytes [0]) json) := by
  rw [extractCookieData, show writeByte 0 .new = _ from (writeBytes_new [0]).1, ok_bind]
  simp only [hraw, ok_bind]

/-- The document that the bytes of a client are parsed to. -/
def parsedCookie (host : Host) (raw : ByteBuffer) : Option Json :=
  match readString raw with
  | .ok (text, _) => host.json.parse text
  | .error _ => none

theorem parsedCookie_eq_some {raw : ByteBuffer} (h : parsedCookie host raw = some json) :
    extractCookieData host now raw =
      catchException (ofBytes [0]) (checkCookie host now (ofBytes [0]) json) := by
  unfold parsedCookie at h
  split at h
  next text rest hraw =>
    rw [extractCookieData_eq hraw, h]
    rfl
  next => cases h

theorem parsedCookie_eq_none {raw : ByteBuffer} (h : parsedCookie host raw = none)
    (hextract : extractCookieData host now raw = .ok buffer) : buffer = ofBytes [0] := by
  unfold parsedCookie at h
  split at h
  next text rest hraw =>
    rw [extractCookieData_eq hraw, h] at hextract
    exact (Except.ok.inj hextract).symm
  next f hraw =>
    rw [extractCookieData, show writeByte 0 .new = _ from (writeBytes_new [0]).1, ok_bind] at hextract
    simp only [hraw, error_bind] at hextract
    cases hextract

/-- A text with its length in front. -/
theorem parsedCookie_prefixed {text : Bytes} (h : text.length < 2 ^ 31) :
    parsedCookie host (ofBytes (prefixed text)) = host.json.parse text := by
  have hstored := (writeBytes_new (prefixed text)).2.1
  rw [← List.append_nil (prefixed text)] at hstored
  rcases (readable_stored true).readVarBytes h _ [] hstored with ⟨rest, hread, -⟩
  rw [List.append_nil] at hread
  rw [parsedCookie, show readString _ = _ from hread]

/-- An answer with the flag comes from a document that passes the check. -/
theorem accepted_of_flag {raw : ByteBuffer} (hextract : extractCookieData host now raw = .ok buffer)
    (hflag : buffer.getBytes.head? = some 1) : ∃ json, parsedCookie host raw = some json ∧
      ∃ lifetime data nonce signature value,
        CookieAccepted host now json lifetime data nonce signature value := by
  have hne : buffer ≠ ofBytes [0] := by
    intro heq
    rw [heq, (writeBytes_new [0]).2.getBytes] at hflag
    exact absurd hflag (by decide)
  cases hparsed : parsedCookie host raw with
  | none => exact absurd (parsedCookie_eq_none hparsed hextract) hne
  | some json =>
    rw [parsedCookie_eq_some hparsed] at hextract
    refine ⟨json, rfl, ?_⟩
    have hcheck := (catchException_eq_ok hextract).resolve_left hne
    exact (checkCookie_eq_ok hcheck).resolve_left hne

/-- A document that passes the check is answered with its payload. -/
theorem CookieAccepted.extract {raw : ByteBuffer} (hparsed : parsedCookie host raw = some json)
    (h : CookieAccepted host now json lifetime data nonce signature value) :
    ∃ buffer, extractCookieData host now raw = .ok buffer ∧
      Fresh true buffer (cookieAnswer (host.cookieRSA.decrypt (host.base64.decode data))) := by
  rcases h.checkCookie (ofBytes [0]) with ⟨buffer, hcheck, hfresh⟩
  exact ⟨buffer, by rw [parsedCookie_eq_some hparsed, hcheck]; rfl, hfresh⟩

/-! ### Earlier calls -/

/-- A call of `storeCookie`. -/
structure StoreCall where
  connection : ZincConnection
  moment : Moment
  padding : Bytes
  cookieId : Identifier
  payload : Bytes
  lifetime : ℤ

/-- The cookie of a call; in the states without a packet for it there is none. -/
def StoreCall.cookie (host : Host) (call : StoreCall) : Option Cookie :=
  match call.connection.state with
  | .config | .play => (Cookie.make host call.moment call.padding call.payload call.lifetime).toOption
  | _ => none

/-- What a call passes to `sign`. -/
def StoreCall.signed (host : Host) (call : StoreCall) : Option Bytes := do
  let cookie ← call.cookie host
  cookie.dataToSign.toOption

/-- Only what earlier calls have signed is verified. -/
def Unforgeable (host : Host) (history : List StoreCall) : Prop :=
  ∀ bytes signature, host.cookieRSA.verify bytes signature = true →
    ∃ call ∈ history, call.signed host = some bytes

/-- Base64 makes at most four characters of three bytes, and a ciphertext is as
long as the key. -/
structure CookieSizes (host : Host) : Prop where
  encode_le : ∀ bytes, (host.base64.encode bytes).length ≤ 4 * ((bytes.length + 2) / 3)
  encrypt_le : ∀ padding payload, (host.cookieRSA.encrypt padding payload).length ≤ 2 ^ 16

/-- The parser turns an integer that neither a `long` nor an `unsigned long` holds
into a float. -/
def IntegersFit (text : JsonText) : Prop :=
  ∀ bytes json key value, text.parse bytes = some json →
    json.member key = some (.integer value) → -2 ^ 63 ≤ value ∧ value < 2 ^ 64

theorem addLong_eq_ok {a b sum : ℤ} (h : addLong a b = .ok sum) :
    sum = a + b ∧ -2 ^ 63 ≤ sum ∧ sum < 2 ^ 63 := by
  unfold addLong at h
  split at h
  next hrange =>
    cases h
    exact ⟨rfl, hrange⟩
  next => cases h

variable {cookie other : Cookie} {call : StoreCall} {history : List StoreCall}

theorem Cookie.make_eq_ok {padding payload : Bytes} {lifetime : ℤ}
    (h : Cookie.make host moment padding payload lifetime = .ok cookie) :
    cookie = ⟨host.base64.encode (host.cookieRSA.encrypt padding payload),
      host.base64.encode (moment.randomBytes 32), moment.now + lifetime⟩ ∧
    -2 ^ 63 ≤ cookie.lifetime ∧ cookie.lifetime < 2 ^ 63 := by
  unfold Cookie.make at h
  rcases bind_eq_ok.mp h with ⟨sum, hsum, h⟩
  rcases addLong_eq_ok hsum with ⟨rfl, hrange⟩
  cases h
  exact ⟨rfl, hrange⟩

theorem toOption_eq_some {α : Type} {x : Except Fault α} {a : α} (h : x.toOption = some a) :
    x = .ok a := by
  cases x with
  | ok b =>
    cases h
    rfl
  | error f => cases h

theorem StoreCall.cookie_eq_some (h : call.cookie host = some cookie) :
    Cookie.make host call.moment call.padding call.payload call.lifetime = .ok cookie := by
  unfold StoreCall.cookie at h
  split at h
  · exact toOption_eq_some h
  · exact toOption_eq_some h
  · cases h

theorem StoreCall.signed_eq_some {bytes : Bytes} (h : call.signed host = some bytes) :
    ∃ cookie, call.cookie host = some cookie ∧
      bytes = signedBytes cookie.data cookie.nonce (toLong cookie.lifetime) := by
  rcases Option.bind_eq_some_iff.mp h with ⟨cookie, hcookie, h⟩
  have hsigned := toOption_eq_some h
  rw [Cookie.dataToSign_eq] at hsigned
  exact ⟨cookie, hcookie, (Except.ok.inj hsigned).symm⟩

/-- The strings of a cookie are short. -/
theorem StoreCall.length_le (hsizes : CookieSizes host) (h : call.cookie host = some cookie) :
    cookie.data.length + cookie.nonce.length < 2 ^ 30 := by
  rcases Cookie.make_eq_ok (StoreCall.cookie_eq_some h) with ⟨rfl, -⟩
  have hdata := hsizes.encode_le (host.cookieRSA.encrypt call.padding call.payload)
  have hencrypt := hsizes.encrypt_le call.padding call.payload
  have hnonce := hsizes.encode_le (call.moment.randomBytes 32)
  rw [call.moment.length_randomBytes] at hnonce
  dsimp only
  omega

/-- The signed bytes of a cookie that a call stored are those of no other cookie. -/
theorem StoreCall.dataToSign_inj (hsizes : CookieSizes host) (h : call.cookie host = some cookie)
    (heq : other.dataToSign = cookie.dataToSign) :
    other.data = cookie.data ∧ other.nonce = cookie.nonce ∧
      toLong other.lifetime = toLong cookie.lifetime := by
  rw [Cookie.dataToSign_eq, Cookie.dataToSign_eq] at heq
  exact signedBytes_inj (StoreCall.length_le hsizes h) (Except.ok.inj heq)

theorem toInt_toLong_of_fits {value : ℤ} (h : -2 ^ 63 ≤ value ∧ value < 2 ^ 63) :
    (toLong value).toInt = value := by
  rw [toLong, BitVec.toInt_ofInt, Int.bmod_eq_of_le (by omega) (by omega)]

/-- An integer of a document that is read as a `long` without a sign is that `long`. -/
theorem eq_of_toLong {value : ℤ} (h : -2 ^ 63 ≤ value ∧ value < 2 ^ 64)
    (hpos : 0 ≤ (toLong value).toInt) : (toLong value).toInt = value := by
  by_cases hlt : value < 2 ^ 63
  · exact toInt_toLong_of_fits ⟨h.1, hlt⟩
  · rw [toLong, BitVec.toInt_ofInt, Int.bmod_def] at hpos
    omega

/-! ### Sample values -/

def sampleNonce : Bytes := List.replicate 43 65 ++ [61]

/-- The texts of the bytes that occur, and others for all other bytes. -/
def sampleBase64 : Base64 where
  encode bytes :=
    if bytes = [] then [] else if bytes = [65] then utf8 "QQ==" else if bytes = [1] then utf8 "AQ=="
    else if bytes = zeros 32 then sampleNonce else 0 :: bytes
  decode text :=
    if text = utf8 "QQ==" then [65] else if text = utf8 "AQ==" then [1]
    else if text = sampleNonce then zeros 32 else text.tail

theorem decode_encode_sampleBase64 (bytes : Bytes) :
    sampleBase64.decode (sampleBase64.encode bytes) = bytes := by
  dsimp only [sampleBase64]
  by_cases h₁ : bytes = []
  · rw [if_pos h₁, h₁]
    decide
  by_cases h₂ : bytes = [65]
  · rw [if_neg h₁, if_pos h₂, h₂]
    decide
  by_cases h₃ : bytes = [1]
  · rw [if_neg h₁, if_neg h₂, if_pos h₃, h₃]
    decide
  by_cases h₄ : bytes = zeros 32
  · rw [if_neg h₁, if_neg h₂, if_neg h₃, if_pos h₄, h₄]
    decide
  rw [if_neg h₁, if_neg h₂, if_neg h₃, if_neg h₄]
  have hne : ∀ text : Bytes, text.head? ≠ some 0 → 0 :: bytes ≠ text := by
    rintro text h rfl
    exact h rfl
  rw [if_neg (hne _ (by decide)), if_neg (hne _ (by decide)), if_neg (hne _ (by decide)),
    List.tail_cons]

theorem length_encode_sampleBase64 (bytes : Bytes) :
    (sampleBase64.encode bytes).length ≤ 4 * ((bytes.length + 2) / 3) := by
  dsimp only [sampleBase64]
  split
  · simp
  next hne =>
  have hpos := List.length_pos_of_ne_nil hne
  split
  next h => rw [h]; decide
  next =>
  split
  next h => rw [h]; decide
  next =>
  split
  next h => rw [h]; decide
  next =>
    rw [List.length_cons]
    omega

def sampleCookie (lifetime : ℤ) : Cookie := ⟨utf8 "QQ==", sampleNonce, lifetime⟩

/-- The document of that cookie with any member for the lifetime. -/
def sampleDocument (member : ℤ) : Json :=
  cookieJson (.integer member) (.string (utf8 "QQ==")) (.string (utf8 "AQ==")) (.string sampleNonce)

def sampleText (member : ℤ) : Bytes :=
  123 :: 34 :: (utf8 "data\":\"QQ==\",\"lifetime\":" ++ decimal member ++ utf8 ",\"nonce\":\"" ++
    sampleNonce ++ utf8 "\",\"signature\":\"AQ==\"" ++ [125])

/-- A server that has signed the cookie of one call, and a parser for one document. -/
def cookieHost (stored member : ℤ) : Host := { sampleHost with
  json :=
    { parse := fun text => if text = sampleText member then some (sampleDocument member) else none
      dump := fun _ => sampleText member
      dumpIndented := fun _ => []
      floatLess := fun _ _ => false
      floatToLong := fun _ => 0 }
  base64 := sampleBase64
  cookieRSA :=
    { encrypt := fun _ payload => payload.take 245
      decrypt := id
      sign := fun _ => [1]
      verify := fun bytes signature =>
        bytes = signedBytes (utf8 "QQ==") sampleNonce (toLong stored) && signature = [1] } }

def sampleCall (now lifetime : ℤ) : StoreCall where
  connection := { waiting [] with state := .config }
  moment := { sampleMoment [] with now }
  padding := []
  cookieId := ⟨utf8 "zinc", utf8 "a"⟩
  payload := [65]
  lifetime := lifetime

theorem make_sampleCall {now lifetime : ℤ} (h : -2 ^ 63 ≤ now + lifetime ∧ now + lifetime < 2 ^ 63)
    (stored member : ℤ) : Cookie.make (cookieHost stored member) { sampleMoment [] with now } [] [65]
      lifetime = .ok (sampleCookie (now + lifetime)) := by
  rw [Cookie.make, addLong, if_pos h]
  rfl

theorem cookie_sampleCall {now lifetime : ℤ} (h : -2 ^ 63 ≤ now + lifetime ∧ now + lifetime < 2 ^ 63)
    (stored member : ℤ) : (sampleCall now lifetime).cookie (cookieHost stored member) =
      some (sampleCookie (now + lifetime)) :=
  congrArg Except.toOption (make_sampleCall h stored member)

theorem cookieSizes_cookieHost (stored member : ℤ) : CookieSizes (cookieHost stored member) where
  encode_le := length_encode_sampleBase64
  encrypt_le _ payload := by
    change (payload.take 245).length ≤ _
    rw [List.length_take]
    omega

theorem integersFit_cookieHost (stored : ℤ) {member : ℤ} (h : -2 ^ 63 ≤ member ∧ member < 2 ^ 64) :
    IntegersFit (cookieHost stored member).json := by
  intro bytes json key value hparse hmember
  change (if bytes = sampleText member then some (sampleDocument member) else none) = _ at hparse
  split at hparse
  · cases hparse
    rw [sampleDocument, member_cookieJson] at hmember
    split at hmember
    · cases hmember
    split at hmember
    · cases hmember
    split at hmember
    · cases hmember
    split at hmember
    · cases hmember
      exact h
    · cases hmember
  · cases hparse

theorem unforgeable_cookieHost {now lifetime stored : ℤ} (hstored : now + lifetime = stored)
    (h : -2 ^ 63 ≤ stored ∧ stored < 2 ^ 63) (member : ℤ) :
    Unforgeable (cookieHost stored member) [sampleCall now lifetime] := by
  intro bytes signature hverify
  obtain ⟨hbytes, -⟩ := Bool.and_eq_true_iff.mp hverify
  rw [← hstored] at h
  refine ⟨_, List.mem_singleton_self _, ?_⟩
  rw [StoreCall.signed, cookie_sampleCall h, hstored, of_decide_eq_true hbytes]
  change (sampleCookie stored).dataToSign.toOption = _
  rw [Cookie.dataToSign_eq]
  rfl

theorem parsed_sampleText (stored : ℤ) {member : ℤ} (h : (sampleText member).length < 2 ^ 31) :
    parsedCookie (cookieHost stored member) (ofBytes (prefixed (sampleText member))) =
      some (sampleDocument member) :=
  (parsedCookie_prefixed h).trans (if_pos rfl)

theorem accepted_sampleDocument {now stored member : ℤ} (hmember : toLong member = toLong stored)
    (hstored : -2 ^ 63 ≤ stored ∧ stored < 2 ^ 63) (halive : now ≤ stored) :
    CookieAccepted (cookieHost stored member) now (sampleDocument member) (.integer member)
      (utf8 "QQ==") sampleNonce (utf8 "AQ==") (toLong member) := by
  rcases members_cookieJson (.integer member) (.string (utf8 "QQ==")) (.string (utf8 "AQ=="))
    (.string sampleNonce) with ⟨hlifetime, hdata, hsignature, hnonce⟩
  refine ⟨hlifetime, hdata, hnonce, hsignature, ?_, rfl, ?_⟩
  · rw [lessLong, hmember, toInt_toLong_of_fits hstored, decide_eq_false_iff_not]
    omega
  · rw [hmember]
    have hsignature : sampleBase64.decode (utf8 "AQ==") = [1] := by decide
    exact Bool.and_eq_true_iff.mpr ⟨decide_eq_true rfl, decide_eq_true hsignature⟩

/-- The check lets the sample document pass. -/
theorem extract_sampleText {now stored member : ℤ} (hmember : toLong member = toLong stored)
    (hstored : -2 ^ 63 ≤ stored ∧ stored < 2 ^ 63) (halive : now ≤ stored)
    (htext : (sampleText member).length < 2 ^ 31) : ∃ buffer,
      extractCookieData (cookieHost stored member) now (ofBytes (prefixed (sampleText member))) =
        .ok buffer ∧ buffer.getBytes.head? = some 1 := by
  rcases (accepted_sampleDocument hmember hstored halive).extract (parsed_sampleText stored htext) with
    ⟨buffer, hextract, hfresh⟩
  exact ⟨buffer, hextract, by rw [hfresh.getBytes]; rfl⟩

/-! ### Authenticity -/

/-- Whatever a client returns, an answer with the flag is about a cookie that an
earlier call stored and that has not expired. The member for the lifetime is the
stored one as a `long`. -/
theorem cookie_authentic (hsizes : CookieSizes host) (hintegers : IntegersFit host.json)
    (hunforgeable : Unforgeable host history) {raw : ByteBuffer}
    (hextract : extractCookieData host now raw = .ok buffer)
    (hflag : buffer.getBytes.head? = some 1) :
    ∃ json, parsedCookie host raw = some json ∧
      ∀ lifetime, json.member (utf8 "lifetime") = some (.integer lifetime) →
        ∃ call ∈ history, ∃ cookie, call.cookie host = some cookie ∧
          json.member (utf8 "data") = some (.string cookie.data) ∧
          json.member (utf8 "nonce") = some (.string cookie.nonce) ∧
          (toLong lifetime).toInt = cookie.lifetime ∧ now ≤ cookie.lifetime ∧
          (0 ≤ now → lifetime = cookie.lifetime) ∧
          ∀ other : Cookie, other.dataToSign = cookie.dataToSign →
            other.data = cookie.data ∧ other.nonce = cookie.nonce ∧
              toLong other.lifetime = toLong cookie.lifetime := by
  rcases accepted_of_flag hextract hflag with ⟨json, hparsed, _, data, nonce, signature, value, h⟩
  refine ⟨json, hparsed, ?_⟩
  intro lifetime hlifetime
  obtain rfl := Option.some.inj (h.lifetime_eq.symm.trans hlifetime)
  obtain rfl := Except.ok.inj h.value_eq
  have halive : now ≤ (toLong lifetime).toInt := by
    have := h.alive
    rwa [lessLong, decide_eq_false_iff_not, not_lt] at this
  rcases hunforgeable _ _ h.verified with ⟨call, hcall, hsigned⟩
  rcases StoreCall.signed_eq_some hsigned with ⟨cookie, hcookie, hbytes⟩
  rcases signedBytes_inj (StoreCall.length_le hsizes hcookie) hbytes with ⟨hdata, hnonce, hlong⟩
  have hstored : (toLong lifetime).toInt = cookie.lifetime := by
    rw [hlong]
    exact toInt_toLong_of_fits (Cookie.make_eq_ok (StoreCall.cookie_eq_some hcookie)).2
  refine ⟨call, hcall, cookie, hcookie, hdata ▸ h.data_eq, hnonce ▸ h.nonce_eq, hstored,
    hstored ▸ halive, ?_, fun other => StoreCall.dataToSign_inj hsizes hcookie⟩
  intro hnow
  have hfits : -2 ^ 63 ≤ lifetime ∧ lifetime < 2 ^ 64 := by
    unfold parsedCookie at hparsed
    split at hparsed
    · exact hintegers _ _ _ _ hparsed hlifetime
    · cases hparsed
  rw [← hstored, eq_of_toLong hfits (hnow.trans halive)]

theorem cookie_authentic_sample : ∃ buffer,
    extractCookieData (cookieHost 60 60) 30 (ofBytes (prefixed (sampleText 60))) = .ok buffer ∧
    ∃ json, parsedCookie (cookieHost 60 60) (ofBytes (prefixed (sampleText 60))) = some json ∧
      ∀ lifetime, json.member (utf8 "lifetime") = some (.integer lifetime) →
        ∃ call ∈ [sampleCall 0 60], ∃ cookie, call.cookie (cookieHost 60 60) = some cookie ∧
          json.member (utf8 "data") = some (.string cookie.data) ∧
          json.member (utf8 "nonce") = some (.string cookie.nonce) ∧
          lifetime = cookie.lifetime ∧ 30 ≤ cookie.lifetime := by
  rcases @extract_sampleText 30 60 60 rfl (by decide) (by decide) (by decide +kernel) with
    ⟨buffer, hextract, hflag⟩
  refine ⟨buffer, hextract, ?_⟩
  rcases cookie_authentic (cookieSizes_cookieHost 60 60) (integersFit_cookieHost 60 (by decide))
    (unforgeable_cookieHost (show (0 : ℤ) + 60 = 60 from rfl) (by decide) 60) hextract hflag with
    ⟨json, hparsed, h⟩
  refine ⟨json, hparsed, ?_⟩
  intro lifetime hlifetime
  rcases h lifetime hlifetime with ⟨call, hcall, cookie, hcookie, hdata, hnonce, -, halive, heq, -⟩
  exact ⟨call, hcall, cookie, hcookie, hdata, hnonce, heq (by decide), halive⟩

/-- A second before the epoch, the largest `unsigned long` passes for the stored
number -1. -/
theorem not_cookie_authentic : ¬ ∀ (host : Host) (history : List StoreCall) (now : ℤ)
    (raw buffer : ByteBuffer), CookieSizes host → IntegersFit host.json → Unforgeable host history →
    extractCookieData host now raw = .ok buffer → buffer.getBytes.head? = some 1 →
    ∃ json, parsedCookie host raw = some json ∧
      ∀ lifetime, json.member (utf8 "lifetime") = some (.integer lifetime) →
        ∃ call ∈ history, ∃ cookie, call.cookie host = some cookie ∧
          json.member (utf8 "data") = some (.string cookie.data) ∧
          json.member (utf8 "nonce") = some (.string cookie.nonce) ∧
          lifetime = cookie.lifetime ∧ now ≤ lifetime := by
  intro hall
  rcases @extract_sampleText (-1) (-1) (2 ^ 64 - 1) (by decide) (by decide) (by decide)
    (by decide +kernel) with ⟨buffer, hextract, hflag⟩
  rcases hall _ _ _ _ _ (cookieSizes_cookieHost (-1) (2 ^ 64 - 1))
    (integersFit_cookieHost (-1) (by decide))
    (unforgeable_cookieHost (show (-1 : ℤ) + 0 = -1 from rfl) (by decide) (2 ^ 64 - 1))
    hextract hflag with ⟨json, hparsed, h⟩
  rw [parsed_sampleText (-1) (by decide +kernel)] at hparsed
  cases hparsed
  have hlifetime := (members_cookieJson (.integer (2 ^ 64 - 1)) (.string (utf8 "QQ=="))
    (.string (utf8 "AQ==")) (.string sampleNonce)).1
  rcases h _ hlifetime with ⟨call, hcall, cookie, hcookie, -, -, heq, -⟩
  rw [List.mem_singleton.mp hcall, cookie_sampleCall (by decide)] at hcookie
  cases hcookie
  exact absurd heq (by decide)

end Zinc.Network
