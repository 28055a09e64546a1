import Zinc.Buffer.RoundTrip
import Zinc.Network.CookieCheck

/-! Cookies on their way to a client and back. A Store Cookie packet carries a byte
array with its length in front, and the array is the JSON text of the cookie. The
client returns the array, and the handler of its response takes the length off;
but the check of the cookie takes a second length off, for which it reads the
brace that begins the text. So no cookie that is returned as it was sent passes.
The check is right about a text that still has its length in front. -/

namespace Zinc.Network

open Throw Buffer Buffer.ByteBuffer JsonText ZincConnection

variable {host : Host} {moment : Moment} {padding payload array : Bytes} {cookieId : Identifier}
  {lifetime now : ℤ} {cookie : Cookie} {c c' : ZincConnection}

/-! ### The way to the client -/

/-- A call sends one packet, which carries the array behind the identifier. -/
def Carries (cookieId : Identifier) (array : Bytes) (c c' : ZincConnection) : Prop :=
  ∃ sent, c'.output = c.output ++ [sent] ∧
    sent.data = prefixed cookieId.toString ++ prefixed array

theorem Carries.unique {array' : Bytes} (h : Carries cookieId array c c')
    (h' : Carries cookieId array' c c') : array = array' := by
  rcases h with ⟨sent, houtput, hdata⟩
  rcases h' with ⟨sent', houtput', hdata'⟩
  rw [houtput] at houtput'
  rw [← List.singleton_inj.mp (List.append_cancel_left houtput'), hdata] at hdata'
  exact (intBytes_append_inj (List.append_cancel_left hdata')).2

theorem post_carries {id : BitVec 32} {text : Bytes} (h : c.post host id (do
      writeIdentifier cookieId
      writeString text) = .ok c') : Carries cookieId text c c' := by
  have hwrite := ((writable_fresh true).writeVarBytes cookieId.toString).bind
    ((writable_fresh true).writeVarBytes text)
  rcases fresh_of_produces hwrite fresh_new with ⟨data, hdata, hfresh⟩
  rw [post, show (do writeIdentifier cookieId; writeString text : Action Unit) .new = _ from hdata,
    ok_bind] at h
  rcases send_eq_ok h with ⟨encrypt, wire, rfl, -, -⟩
  exact ⟨_, rfl, hfresh.getBytes⟩

theorem sendCookie_carries {id : BitVec 32}
    (h : c.sendCookie host moment padding id cookieId payload lifetime = .ok c') :
    ∃ cookie, Cookie.make host moment padding payload lifetime = .ok cookie ∧
      Carries cookieId (host.json.dump (cookie.document host)) c c' := by
  unfold sendCookie at h
  rcases bind_eq_ok.mp h with ⟨cookie, hcookie, h⟩
  rw [Cookie.json_eq, ok_bind] at h
  exact ⟨cookie, hcookie, post_carries h⟩

/-- The array of a Store Cookie packet is the text of the document. -/
theorem storeCookie_carries
    (h : c.storeCookie host moment padding cookieId payload lifetime = .ok c')
    (hcarried : Carries cookieId array c c') :
    ∃ cookie, Cookie.make host moment padding payload lifetime = .ok cookie ∧
      array = host.json.dump (cookie.document host) := by
  unfold storeCookie at h
  split at h
  · rcases sendCookie_carries h with ⟨cookie, hcookie, hcarries⟩
    exact ⟨cookie, hcookie, hcarried.unique hcarries⟩
  · rcases sendCookie_carries h with ⟨cookie, hcookie, hcarries⟩
    exact ⟨cookie, hcookie, hcarried.unique hcarries⟩
  · cases h
    rcases hcarried with ⟨sent, houtput, -⟩
    exact absurd houtput (by simp)

/-! ### The way back -/

/-- The check answers an array with the flag and a payload. -/
def Extracts (host : Host) (now : ℤ) (array payload : Bytes) : Prop :=
  ∃ buffer, extractCookieData host now (ofBytes array) = .ok buffer ∧
    buffer.getBytes = cookieAnswer payload

/-- What is relied on of the texts of documents: that of an object with members
begins with a brace and a quotation mark, and one that begins with a quotation
mark is not that of an object. -/
structure ObjectTexts (text : JsonText) : Prop where
  dump : ∀ member members, ∃ rest, text.dump (.object (member :: members)) = 123 :: 34 :: rest
  parse : ∀ rest members, text.parse (34 :: rest) ≠ some (.object members)

/-- The brace is read as a length. -/
theorem readString_brace (rest : Bytes) : ∃ more buffer,
    readString (ofBytes (123 :: 34 :: rest)) = .ok (34 :: more, buffer) := by
  obtain ⟨more, hmemory⟩ : ∃ more, memory (123 :: 34 :: rest) = 123 :: 34 :: more := ⟨_, rfl⟩
  have hlength := length_memory (123 :: 34 :: rest)
  have hahead := (writeBytes_new (123 :: 34 :: rest)).2.ahead
  rw [hmemory] at hahead hlength
  rcases readVarInt_ahead hahead (le_trans (by decide) hlength) with ⟨buffer, hvar, hahead'⟩
  rcases varInt_cons (c := 123) (by decide) (34 :: more) with ⟨hvalue, hafter⟩
  rw [hvalue] at hvar
  rw [hafter] at hahead'
  rcases hahead'.shape.read (n := 123) (le_maxSize (by omega)) with ⟨b, hread, -⟩
  rw [hahead'.ahead_eq] at hread
  refine ⟨more.take 122, { buffer with internalBuffer := b }, ?_⟩
  rw [readString, bind_of_eq_ok hvar]
  change readBytes 123 buffer = _
  rw [readBytes, hread]
  rfl

theorem checkCookie_of_not_object {json : Json} (h : ∀ members, json ≠ .object members)
    (errorBuffer : ByteBuffer) : checkCookie host now errorBuffer json = .ok errorBuffer := by
  cases json with
  | object members => exact absurd rfl (h members)
  | _ => rfl

/-- The check gives up on the text of an object. -/
theorem extract_brace (htexts : ObjectTexts host.json) (now : ℤ) (rest : Bytes) :
    extractCookieData host now (ofBytes (123 :: 34 :: rest)) = .ok (ofBytes [0]) := by
  rcases readString_brace rest with ⟨more, buffer, hread⟩
  rw [extractCookieData_eq hread]
  cases hparse : host.json.parse (34 :: more) with
  | none => rfl
  | some json =>
    have hobject : ∀ members, json ≠ .object members := by
      rintro members rfl
      exact htexts.parse more members hparse
    rw [orThrow, ok_bind, checkCookie_of_not_object hobject]
    rfl

theorem document_eq_object (host : Host) (cookie : Cookie) :
    ∃ member members, cookie.document host = .object (member :: members) := by
  unfold Cookie.document cookieJson Json.ofMembers
  simp only [List.foldl_cons, List.foldl_nil]
  rcases List.exists_cons_of_ne_nil (Json.insert_ne_nil _) with ⟨member, members, h⟩
  exact ⟨member, members, congrArg Json.object h⟩

theorem storeCookie_extract (htexts : ObjectTexts host.json)
    (hstore : c.storeCookie host moment padding cookieId payload lifetime = .ok c')
    (hcarried : Carries cookieId array c c') (now : ℤ) :
    extractCookieData host now (ofBytes array) = .ok (ofBytes [0]) := by
  rcases storeCookie_carries hstore hcarried with ⟨cookie, -, rfl⟩
  rcases document_eq_object host cookie with ⟨member, members, hobject⟩
  rcases htexts.dump member members with ⟨rest, hdump⟩
  rw [hobject, hdump]
  exact extract_brace htexts now rest

theorem not_extracts_of_error (h : extractCookieData host now (ofBytes array) = .ok (ofBytes [0])) :
    ¬ Extracts host now array payload := by
  rintro ⟨buffer, hextract, hbytes⟩
  rw [h] at hextract
  cases hextract
  rw [(writeBytes_new [0]).2.getBytes] at hbytes
  cases hbytes

/-! ### The handlers -/

theorem extractedPayload_none {moment : Moment}
    (h : extractCookieData host moment.now (ofBytes array) = .ok (ofBytes [0])) :
    extractedPayload host moment array = .ok none := by
  rcases (readable_stored true).readByte 0 (ofBytes [0]) [] (writeBytes_new [0]).2.1 with
    ⟨rest, hread, -⟩
  have hnone : readPrefixedOptional readPrefixedByteArray (ofBytes [0]) = .ok (none, rest) := by
    rw [readPrefixedOptional, bind_apply, hread]
    rfl
  rw [extractedPayload, (writeBytes_new array).1, ok_bind]
  simp only [h, hnone, ok_bind, pure_eq]

/-- The response of a client that returns an array. -/
def cookieResponseBytes (cookieId : Identifier) (array : Bytes) : Bytes :=
  prefixed cookieId.toString ++ ([1] ++ prefixed array)

/-- The handlers of both states tell the parser of the cookie that there is none. -/
theorem cookieResponse_eq (htexts : ObjectTexts host.json)
    (hstore : c.storeCookie host moment padding cookieId payload lifetime = .ok c')
    (hcarried : Carries cookieId array c c') (hid : cookieId.toString.length < 2 ^ 31)
    (harray : array.length < 2 ^ 31) (moment' : Moment) (c'' : ZincConnection) :
    cookieResponse host moment' (ofBytes (cookieResponseBytes cookieId array)) c'' =
      callCookieResponseParser cookieId.toString none c'' := by
  have hv := readable_stored true
  have hstored := (writeBytes_new (cookieResponseBytes cookieId array)).2.1
  rcases hv.readVarBytes hid _ ([1] ++ prefixed array) hstored with ⟨data₁, hread, h₁⟩
  rcases hv.readByte 1 data₁ (prefixed array) h₁ with ⟨data₂, hbyte, h₂⟩
  rw [← List.append_nil (prefixed array)] at h₂
  rcases hv.readVarBytes harray data₂ [] h₂ with ⟨data₃, hbytes, -⟩
  have hcolon : 58 ∈ cookieId.toString := by simp [Identifier.toString]
  rcases Identifier.toString_ofString hcolon with ⟨parsed, hparsed, htext⟩
  have hidentifier : readIdentifier (ofBytes (cookieResponseBytes cookieId array)) =
      .ok (parsed, data₁) := by
    rw [readIdentifier, bind_of_eq_ok (show readString _ = _ from hread)]
    simp only [hparsed, ok_bind, pure_eq]
  have hoptional : readPrefixedOptional readPrefixedByteArray data₁ = .ok (some array, data₃) := by
    rw [readPrefixedOptional, bind_of_eq_ok hbyte]
    change (readPrefixedByteArray data₂ >>= _) = _
    rw [show readPrefixedByteArray data₂ = _ from hbytes]
    rfl
  have hextract := storeCookie_extract htexts hstore hcarried moment'.now
  unfold cookieResponse
  simp only [hidentifier, hoptional, ok_bind, extractedPayload_none hextract, htext]

/-! ### With the length in front -/

/-- What is relied on of the libraries for one cookie. -/
structure CookieFaithful (host : Host) (padding payload : Bytes) (cookie : Cookie) : Prop where
  decrypt : host.cookieRSA.decrypt (host.cookieRSA.encrypt padding payload) = payload
  verify : ∀ bytes, cookie.dataToSign = .ok bytes →
    host.cookieRSA.verify bytes (host.cookieRSA.sign bytes) = true
  base64 : ∀ bytes, host.base64.decode (host.base64.encode bytes) = bytes
  json : host.json.parse (host.json.dump (cookie.document host)) = some (cookie.document host)

theorem CookieFaithful.accepted (hfaithful : CookieFaithful host padding payload cookie)
    (hmake : Cookie.make host moment padding payload lifetime = .ok cookie)
    (halive : now ≤ cookie.lifetime) :
    CookieAccepted host now (cookie.document host) (.integer cookie.lifetime) cookie.data cookie.nonce
      (host.base64.encode (host.cookieRSA.sign
        (signedBytes cookie.data cookie.nonce (toLong cookie.lifetime)))) (toLong cookie.lifetime) := by
  rcases members_cookieJson (.integer cookie.lifetime) (.string cookie.data)
    (.string (host.base64.encode (host.cookieRSA.sign
      (signedBytes cookie.data cookie.nonce (toLong cookie.lifetime))))) (.string cookie.nonce) with
    ⟨hlifetime, hdata, hsignature, hnonce⟩
  refine ⟨hlifetime, hdata, hnonce, hsignature, ?_, rfl, ?_⟩
  · rw [lessLong, toInt_toLong_of_fits (Cookie.make_eq_ok hmake).2, decide_eq_false_iff_not]
    omega
  · rw [hfaithful.base64]
    exact hfaithful.verify _ cookie.dataToSign_eq

/-- The check is right about the text with its length in front. -/
theorem extracts_prefixed (hfaithful : CookieFaithful host padding payload cookie)
    (hmake : Cookie.make host moment padding payload lifetime = .ok cookie)
    (halive : now ≤ cookie.lifetime)
    (hsmall : (host.json.dump (cookie.document host)).length < 2 ^ 31) :
    Extracts host now (prefixed (host.json.dump (cookie.document host))) payload := by
  have hparsed := (@parsedCookie_prefixed host _ hsmall).trans hfaithful.json
  rcases (hfaithful.accepted hmake halive).extract hparsed with ⟨buffer, hextract, hfresh⟩
  rw [(Cookie.make_eq_ok hmake).1, hfaithful.base64, hfaithful.decrypt] at hfresh
  exact ⟨buffer, hextract, hfresh.getBytes⟩

/-! ### Sample values -/

theorem objectTexts_cookieHost (stored member : ℤ) : ObjectTexts (cookieHost stored member).json where
  dump _ _ := ⟨_, rfl⟩
  parse rest members h := by
    change (if 34 :: rest = sampleText member then some (sampleDocument member) else none) = _ at h
    rw [if_neg (by simp [sampleText])] at h
    cases h

theorem document_sampleCookie (n : ℤ) :
    (sampleCookie n).document (cookieHost n n) = sampleDocument n := by
  have hsignature : sampleBase64.encode [1] = utf8 "AQ==" := by decide
  exact congrArg (fun signature => cookieJson (.integer n) (.string (utf8 "QQ==")) (.string signature)
    (.string sampleNonce)) hsignature

theorem cookieFaithful_cookieHost (n : ℤ) :
    CookieFaithful (cookieHost n n) [] [65] (sampleCookie n) where
  decrypt := rfl
  verify bytes h := by
    rw [Cookie.dataToSign_eq] at h
    cases h
    exact Bool.and_eq_true_iff.mpr ⟨decide_eq_true rfl, decide_eq_true rfl⟩
  base64 := decode_encode_sampleBase64
  json := by
    rw [document_sampleCookie]
    exact if_pos rfl

/-- The sample call sends the text. -/
theorem storeCookie_sampleCall {now lifetime : ℤ}
    (h : -2 ^ 63 ≤ now + lifetime ∧ now + lifetime < 2 ^ 63) (stored member : ℤ) : ∃ c',
    (sampleCall now lifetime).connection.storeCookie (cookieHost stored member)
      { sampleMoment [] with now } [] ⟨utf8 "zinc", utf8 "a"⟩ [65] lifetime = .ok c' ∧
    Carries ⟨utf8 "zinc", utf8 "a"⟩ (sampleText member) (sampleCall now lifetime).connection c' := by
  have hwrite := ((writable_fresh true).writeVarBytes
    (Identifier.mk (utf8 "zinc") (utf8 "a")).toString).bind
    ((writable_fresh true).writeVarBytes (sampleText member))
  rcases @post_total_plain (cookieHost stored member) (sampleCall now lifetime).connection 0x0A _ _
    hwrite rfl with ⟨c', hpost⟩
  have hsend : (sampleCall now lifetime).connection.sendCookie (cookieHost stored member)
      { sampleMoment [] with now } [] 0x0A ⟨utf8 "zinc", utf8 "a"⟩ [65] lifetime = .ok c' := by
    rw [sendCookie, make_sampleCall h, ok_bind, Cookie.json_eq, ok_bind]
    exact hpost
  rcases sendCookie_carries hsend with ⟨cookie, -, hcarries⟩
  exact ⟨c', hsend, hcarries⟩

/-! ### Round trips -/

/-- A cookie that comes back as it was sent is never extracted. -/
theorem not_extracts (htexts : ObjectTexts host.json)
    (hstore : c.storeCookie host moment padding cookieId payload lifetime = .ok c')
    (hcarried : Carries cookieId array c c') (now : ℤ) : ¬ Extracts host now array payload :=
  not_extracts_of_error (storeCookie_extract htexts hstore hcarried now)

theorem not_extracts_sample : ∃ c',
    Carries ⟨utf8 "zinc", utf8 "a"⟩ (sampleText 60) (sampleCall 0 60).connection c' ∧
      ¬ Extracts (cookieHost 60 60) 30 (sampleText 60) [65] := by
  rcases @storeCookie_sampleCall 0 60 (by decide) 60 60 with ⟨c', hstore, hcarries⟩
  exact ⟨c', hcarries, not_extracts (objectTexts_cookieHost 60 60) hstore hcarries 30⟩

/-- The cookie of the sample call does not come back, half a minute before it expires. -/
theorem not_round_trip : ¬ ∀ (host : Host) (moment : Moment) (padding payload array : Bytes)
    (cookieId : Identifier) (lifetime now : ℤ) (cookie : Cookie) (c c' : ZincConnection),
    ObjectTexts host.json → Cookie.make host moment padding payload lifetime = .ok cookie →
    CookieFaithful host padding payload cookie → 0 ≤ lifetime → moment.now ≤ now →
    now ≤ cookie.lifetime → c.storeCookie host moment padding cookieId payload lifetime = .ok c' →
    Carries cookieId array c c' → Extracts host now array payload := by
  intro hall
  rcases @storeCookie_sampleCall 0 60 (by decide) 60 60 with ⟨c', hstore, hcarries⟩
  have hextracts := hall _ _ _ _ _ _ _ 30 _ _ _ (objectTexts_cookieHost 60 60)
    (make_sampleCall (by decide) 60 60) (cookieFaithful_cookieHost 60) (by decide) (by decide)
    (by decide) hstore hcarries
  exact not_extracts_of_error
    (storeCookie_extract (objectTexts_cookieHost 60 60) hstore hcarries 30) hextracts

end Zinc.Network
