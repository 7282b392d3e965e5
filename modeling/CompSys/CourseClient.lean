import CompSys.CourseServer
import CompSys.PeerReply
import CompSys.PeerRequest

/-!
# The clients of A3

`client.py` joins the fields of a request, which the server takes apart again. The C client
of `networking.c` has a signature of its own.
-/
namespace CompSys.CourseServer

open Peer PythonText CString
open PeerClient (strlen strncpy length_strncpy)

/-! ## The request of the Python client -/

/-- `username[:LEN_USERNAME].ljust(LEN_USERNAME, '\x00')` as bytes. -/
def usernameField (username : String) : Bytes :=
  encode (String.ofList
    ((username.toList.take LEN_USERNAME).rightpad LEN_USERNAME (Char.ofNat 0)))

/-- `str.encode(f"{password}{salt}")`. -/
def salted (password salt : String) : Bytes := encode (password ++ salt)

def assemblePayload (sha : Sha256) (username password salt request : String) :
    Except PyError Bytes := do
  let lengthField ← pack request.toList.length
  return usernameField username ++ sha.digest (salted password salt) ++ lengthField ++
    encode request

def LEN_HEADER : ℕ := LEN_USERNAME + LEN_SIGNATURE + LEN_REQUEST_LENGTH

/-- The server finds the fields in the bytes that it receives, and the length of all bytes behind
them. -/
def Understood (sha : Sha256) (username password salt request : String) : Prop :=
  ∃ payload, assemblePayload sha username password salt request = .ok payload ∧
    parseRequest (payload.take MSG_MAX) = .ok {
      username := String.ofList (username.toList.take LEN_USERNAME)
      signature := sha.digest (salted password salt)
      requestLength := ((payload.take MSG_MAX).drop LEN_HEADER).length
      body := encode request }

theorem parseRequest_joined {name signature : Bytes} {n : ℕ} (body : Bytes)
    (hname : name.length = LEN_USERNAME) (hsignature : signature.length = LEN_SIGNATURE)
    (hn : n < 2 ^ 32) :
    parseRequest (name ++ signature ++ BigEndian.encode 4 n ++ body) =
      (decodeUtf8 name).map fun username => ⟨stripNul username, signature, n, body.take n⟩ := by
  have hunpack := unpack_encode hn
  have hlength := BigEndian.length_encode 4 n
  generalize BigEndian.encode 4 n = a at *
  obtain ⟨m, hm⟩ : ∃ m, m = name ++ signature ++ a ++ body := ⟨_, rfl⟩
  rw [← hm]
  change name.length = 16 at hname
  change signature.length = 32 at hsignature
  have hnameField : slice m 0 16 = name :=
    slice_field [] name (signature ++ a ++ body) (by simp [hm]) rfl (by omega)
  have hsignatureField : slice m 16 48 = signature :=
    slice_field name signature (a ++ body) (by simp [hm]) hname (by omega)
  have hlengthField : slice m 48 52 = a :=
    slice_field (name ++ signature) a body (by simp [hm]) (by simp [hname, hsignature]) (by omega)
  have hbody : slice m 52 (52 + n) = body.take n := by
    have hfront : (name ++ signature ++ a).length = 52 := by simp [hname, hsignature, hlength]
    rw [slice, hm, ← hfront, List.take_length_add_append, List.drop_left]
  simp only [parseRequest, LEN_USERNAME, LEN_SIGNATURE, LEN_REQUEST_LENGTH,
    Nat.reduceAdd, hnameField, hsignatureField, hlengthField, hunpack]
  simp only [bind, Except.bind, hbody]
  cases decodeUtf8 name <;> rfl

theorem parseRequest_slice {message : Bytes} {attributes : Attributes}
    (h : parseRequest message = .ok attributes) :
    attributes.body = slice message LEN_HEADER (LEN_HEADER + attributes.requestLength) := by
  obtain ⟨requestLength, -, h⟩ := ok_of_bind h
  obtain ⟨username, -, h⟩ := ok_of_bind h
  cases h
  rfl

theorem length_usernameField_iff (username : String) :
    (usernameField username).length = LEN_USERNAME ↔
      ∀ c ∈ username.toList.take LEN_USERNAME, c.toNat < 128 := by
  have hchars : (String.ofList ((username.toList.take LEN_USERNAME).rightpad LEN_USERNAME
      (Char.ofNat 0))).toList.length = LEN_USERNAME := by
    rw [String.toList_ofList, List.length_rightpad, List.length_take]
    omega
  constructor
  · intro h c hc
    refine ascii_of_length_encode (h.trans hchars.symm) c ?_
    rw [String.toList_ofList, List.rightpad]
    exact List.mem_append_left _ hc
  · intro h
    refine (length_encode_ascii ?_).trans hchars
    intro c hc
    rw [String.toList_ofList, List.rightpad, List.mem_append] at hc
    rcases hc with hc | hc
    · exact h c hc
    · rw [List.eq_of_mem_replicate hc]
      decide

/-- The field is at least as long as it should be. -/
theorem le_length_usernameField (username : String) :
    LEN_USERNAME ≤ (usernameField username).length := by
  have hchars := length_le_length_encode (String.ofList
    ((username.toList.take LEN_USERNAME).rightpad LEN_USERNAME (Char.ofNat 0)))
  rw [String.toList_ofList, List.length_rightpad] at hchars
  exact (le_max_left _ _).trans hchars

section Request

variable (sha : Sha256) {username request : String} (password salt : String)
  (hfits : (usernameField username).length + LEN_SIGNATURE + LEN_REQUEST_LENGTH +
    (encode request).length ≤ MSG_MAX)
include hfits

/-- A message within the bound is sent and received as a whole. -/
theorem assemblePayload_eq :
    ∃ payload, assemblePayload sha username password salt request = .ok payload ∧
      payload.take MSG_MAX = payload ∧
      payload = usernameField username ++ sha.digest (salted password salt) ++
        BigEndian.encode 4 request.toList.length ++ encode request := by
  have hrequest := length_le_length_encode request
  have hshort : request.toList.length < 2 ^ 32 := by
    change _ ≤ 1024 at hfits
    omega
  refine ⟨_, ?_, ?_, rfl⟩
  · rw [assemblePayload, pack_eq hshort]
    rfl
  · refine List.take_of_length_le ?_
    rw [List.length_append, List.length_append, List.length_append, sha.length_digest,
      BigEndian.length_encode]
    exact hfits

theorem understood_of_ascii (hnul : Char.ofNat 0 ∉ username.toList)
    (hname : ∀ c ∈ username.toList.take LEN_USERNAME, c.toNat < 128)
    (hrequest : ∀ c ∈ request.toList, c.toNat < 128) :
    Understood sha username password salt request := by
  obtain ⟨payload, hassembled, htake, hpayload⟩ := assemblePayload_eq sha password salt hfits
  have hlength := length_encode_ascii hrequest
  have hfield := (length_usernameField_iff username).mpr hname
  have hshort : request.toList.length < 2 ^ 32 := by
    rw [← hlength]
    change _ ≤ 1024 at hfits
    omega
  have hstrip : stripNul (String.ofList ((username.toList.take LEN_USERNAME).rightpad LEN_USERNAME
      (Char.ofNat 0))) = String.ofList (username.toList.take LEN_USERNAME) :=
    stripNul_pad (fun hmem => hnul (List.mem_of_mem_take hmem)) _
  have hbehind : (payload.drop LEN_HEADER).length = request.toList.length := by
    rw [hpayload, ← hlength]
    simp only [List.length_drop, List.length_append, hfield, sha.length_digest,
      BigEndian.length_encode]
    exact Nat.add_sub_cancel_left _ _
  refine ⟨payload, hassembled, ?_⟩
  rw [htake, hbehind, hpayload, parseRequest_joined _ hfield (sha.length_digest _) hshort,
    usernameField, decodeUtf8_encode, Except.map, hstrip, ← hlength, List.take_length]

/-- A field that is too long shifts the bytes behind it, a character of several bytes in the
request makes its length too small. -/
theorem ascii_of_understood (h : Understood sha username password salt request) :
    (∀ c ∈ username.toList.take LEN_USERNAME, c.toNat < 128) ∧
      ∀ c ∈ request.toList, c.toNat < 128 := by
  obtain ⟨payload, hassembled, htake, hpayload⟩ := assemblePayload_eq sha password salt hfits
  obtain ⟨payload', hassembled', hparsed⟩ := h
  rw [hassembled, Except.ok.injEq] at hassembled'
  rw [← hassembled', htake] at hparsed
  have hbehind : (payload.drop LEN_HEADER).length + LEN_USERNAME =
      (usernameField username).length + (encode request).length := by
    have hle := le_length_usernameField username
    rw [hpayload]
    simp only [List.length_drop, List.length_append, sha.length_digest, BigEndian.length_encode,
      LEN_HEADER, LEN_USERNAME, LEN_SIGNATURE, LEN_REQUEST_LENGTH] at hle ⊢
    omega
  have hbody : slice payload LEN_HEADER (LEN_HEADER + (payload.drop LEN_HEADER).length) =
      encode request := (parseRequest_slice hparsed).symm
  have hall : encode request = payload.drop LEN_HEADER := by
    rw [← hbody, slice, List.take_of_length_le]
    rw [List.length_drop]
    omega
  have hfield : (usernameField username).length = LEN_USERNAME := by
    rw [hall] at hbehind
    omega
  refine ⟨(length_usernameField_iff username).mp hfield, ascii_of_length_encode ?_⟩
  have hshort : request.toList.length < 2 ^ 32 := by
    have hrequest := length_le_length_encode request
    change _ ≤ 1024 at hfits
    omega
  rw [← hall, hpayload, parseRequest_joined _ hfield (sha.length_digest _) hshort,
    usernameField, decodeUtf8_encode, Except.map, Except.ok.injEq] at hparsed
  exact (congrArg Attributes.requestLength hparsed).symm

end Request

/-- A request is understood exactly if its username, as far as it is sent, and its path are
ASCII. -/
theorem request_understood_iff (sha : Sha256) (username password salt request : String)
    (hnul : Char.ofNat 0 ∉ username.toList)
    (hfits : (usernameField username).length + LEN_SIGNATURE + LEN_REQUEST_LENGTH +
      (encode request).length ≤ MSG_MAX) :
    Understood sha username password salt request ↔
      (∀ c ∈ username.toList.take LEN_USERNAME, c.toNat < 128) ∧
        ∀ c ∈ request.toList, c.toNat < 128 := by
  constructor
  · intro h
    exact ascii_of_understood sha password salt hfits h
  · intro ⟨hname, hrequest⟩
    exact understood_of_ascii sha password salt hfits hnul hname hrequest

theorem request_understood_tiny : Understood abcSha256 "ab" "ab" "c" "tiny.txt" :=
  (request_understood_iff abcSha256 "ab" "ab" "c" "tiny.txt" (by decide) (by decide +kernel)).mpr
    ⟨List.all_iff_forall_prop.mp rfl, List.all_iff_forall_prop.mp rfl⟩

/-- The path `é` is one character and two bytes: the server cuts it. -/
theorem request_not_understood : ¬ ∀ (sha : Sha256) (username password salt request : String),
    (∀ s ∈ [username, password, salt, request], Char.ofNat 0 ∉ s.toList) →
    (usernameField username).length + LEN_SIGNATURE + LEN_REQUEST_LENGTH +
      (encode request).length ≤ MSG_MAX →
    Understood sha username password salt request := by
  intro h
  have hfits : (usernameField "ab").length + LEN_SIGNATURE + LEN_REQUEST_LENGTH +
      (encode "é").length ≤ MSG_MAX := by decide +kernel
  have hascii := ascii_of_understood abcSha256 "ab" "c" hfits
    (h abcSha256 "ab" "ab" "c" "é" (by decide) hfits)
  exact absurd (hascii.2 'é' (by decide)) (by decide)

/-! ## The signature of the C client -/

def PASSWORD_LEN : ℕ := 16
def SALT_LEN : ℕ := 64
def SHA256_HASH_WORDS : ℕ := 8
def SHA256_HASH_SIZE : ℕ := 32

/-- At most `n` characters and a NUL are stored from the first NUL on. Out of the bounds of the
array it is undefined. -/
def strncat (result s : Bytes) (n : ℕ) : Option Bytes :=
  let text := (cString s).take n
  let start := strlen result
  if start + text.length < result.length then
    some (result.take start ++ text ++ 0 :: result.drop (start + text.length + 1))
  else none

/-- The array `result` before it is hashed, from what it holds at first. -/
def saltedPassword (result password salt : Bytes) : Option Bytes :=
  strncat (strncpy password PASSWORD_LEN ++ result.drop PASSWORD_LEN) salt SALT_LEN

/-- What `get_data_sha` hands to `sha256_update`. -/
def hashedData (sourcedata : Bytes) (dataSize : ℕ) : Option Bytes :=
  if dataSize ≤ sourcedata.length then some (sourcedata.take dataSize) else none

/-- What is hashed for a signature. -/
def signatureInput (result password salt : Bytes) : Option Bytes :=
  (saltedPassword result password salt).bind fun result => hashedData result SHA256_HASH_WORDS

def getSignature (sha : Sha256) (result password salt : Bytes) : Option Bytes :=
  (signatureInput result password salt).map fun data => (sha.digest data).take SHA256_HASH_SIZE

/-- A password as the C client holds it. -/
structure IsPassword (memory : Bytes) (password : String) : Prop where
  held : cString memory = encode password
  ascii : ∀ c ∈ password.toList, c.toNat < 128
  short : password.toList.length ≤ PASSWORD_LEN

structure IsSalt (memory : Bytes) (salt : String) : Prop where
  held : cString memory = encode salt
  length : salt.toList.length = SALT_LEN

section Signature

/-- What `strncat` leaves at the front of the array. -/
theorem strncat_front {result s joined : Bytes} {n : ℕ} (h : strncat result s n = some joined) :
    ∃ rest, joined = cString result ++ (cString s).take n ++ 0 :: rest := by
  by_cases hfits : strlen result + ((cString s).take n).length < result.length
  · rw [strncat, if_pos hfits, Option.some_inj] at h
    have htake : result.take (strlen result) = cString result :=
      (List.prefix_iff_eq_take.mp (List.takeWhile_prefix _)).symm
    rw [← h, htake]
    exact ⟨_, rfl⟩
  · rw [strncat, if_neg hfits] at h
    cases h

variable {passwordMemory saltMemory : Bytes} {password salt : String}

theorem IsPassword.length_encode (h : IsPassword passwordMemory password) :
    (encode password).length ≤ PASSWORD_LEN :=
  (length_encode_ascii h.ascii).trans_le h.short

/-- A full password has no NUL behind it in the array. -/
theorem IsPassword.copied (h : IsPassword passwordMemory password) (behind : Bytes) :
    cString (strncpy passwordMemory PASSWORD_LEN ++ behind) =
      if (encode password).length < PASSWORD_LEN then encode password
      else encode password ++ cString behind := by
  have hlength := h.length_encode
  have hnul : 0 ∉ encode password := h.held ▸ nul_not_mem_cString passwordMemory
  rw [strncpy, h.held, List.take_of_length_le hlength, List.rightpad]
  split
  case isTrue hshort =>
    obtain ⟨n, hn⟩ := Nat.exists_eq_add_of_lt hshort
    have hpad : PASSWORD_LEN - (encode password).length = n + 1 := by omega
    rw [hpad, List.replicate_succ, List.append_assoc, List.cons_append, cString_plain hnul]
  case isFalse hfull =>
    have hpad : PASSWORD_LEN - (encode password).length = 0 := by omega
    rw [hpad, List.replicate_zero, List.append_nil, cString_append hnul]

/-- Eight bytes are hashed. -/
theorem signatureInput_eq {result data : Bytes} (hpassword : IsPassword passwordMemory password)
    (hsalt : IsSalt saltMemory salt)
    (h : signatureInput result passwordMemory saltMemory = some data) :
    data = (salted password salt).take SHA256_HASH_WORDS := by
  obtain ⟨joined, hjoined, hdata⟩ := Option.bind_eq_some_iff.mp h
  obtain ⟨-, hdata⟩ := Option.ite_none_right_eq_some.mp hdata
  obtain ⟨rest, hfront⟩ := strncat_front hjoined
  have hlong : SALT_LEN ≤ (encode salt).length :=
    hsalt.length.symm.le.trans (length_le_length_encode salt)
  have hencode : salted password salt = encode password ++ encode salt := by
    rw [salted, encode, String.toList_append, List.flatMap_append]
    rfl
  rw [← Option.some.inj hdata, hfront, hpassword.copied, hsalt.held, hencode]
  split
  case isTrue =>
    have hcover : SHA256_HASH_WORDS ≤ (encode password ++ (encode salt).take SALT_LEN).length := by
      rw [List.length_append, List.length_take, min_eq_left hlong]
      exact le_add_left (by decide)
    rw [List.take_append_of_le_length hcover, List.take_append, List.take_append, List.take_take,
      min_eq_left]
    exact (Nat.sub_le _ _).trans (by decide)
  case isFalse hfull =>
    have hcover : SHA256_HASH_WORDS ≤ (encode password).length :=
      (show SHA256_HASH_WORDS ≤ PASSWORD_LEN by decide).trans (Nat.not_lt.mp hfull)
    rw [List.append_assoc, List.append_assoc, List.take_append_of_le_length hcover,
      List.take_append_of_le_length hcover]

/-- A password of less than sixteen characters leaves room for the salt. -/
theorem signatureInput_defined {result : Bytes}
    (hresult : result.length = PASSWORD_LEN + SALT_LEN + 1)
    (hpassword : IsPassword passwordMemory password) (hsalt : IsSalt saltMemory salt)
    (hshort : (encode password).length < PASSWORD_LEN) :
    signatureInput result passwordMemory saltMemory =
      some ((salted password salt).take SHA256_HASH_WORDS) := by
  have hlength : (strncpy passwordMemory PASSWORD_LEN ++ result.drop PASSWORD_LEN).length =
      PASSWORD_LEN + SALT_LEN + 1 := by
    rw [List.length_append, length_strncpy, List.length_drop, hresult]
    rfl
  have htext : ((cString saltMemory).take SALT_LEN).length = SALT_LEN := by
    rw [List.length_take, hsalt.held, min_eq_left]
    exact hsalt.length.symm.le.trans (length_le_length_encode salt)
  obtain ⟨joined, hjoined⟩ : ∃ joined, saltedPassword result passwordMemory saltMemory =
      some joined := by
    refine ⟨_, if_pos ?_⟩
    rw [htext, hlength, strlen, hpassword.copied, if_pos hshort]
    omega
  obtain ⟨rest, hfront⟩ := strncat_front hjoined
  have hlong : SHA256_HASH_WORDS ≤ joined.length := by
    rw [hfront, List.length_append, List.length_append, htext]
    change 8 ≤ _ + 64 + _
    omega
  have hdata : signatureInput result passwordMemory saltMemory =
      some (joined.take SHA256_HASH_WORDS) := by
    rw [signatureInput, hjoined, Option.bind_some, hashedData, if_pos hlong]
  rw [hdata, signatureInput_eq hpassword hsalt hdata]

theorem length_salted (hsalt : IsSalt saltMemory salt) (password : String) :
    SALT_LEN ≤ (salted password salt).length := by
  refine le_trans ?_ (length_le_length_encode _)
  rw [String.toList_append, List.length_append, hsalt.length]
  exact Nat.le_add_left _ _

/-- The signature is that of the first eight bytes. -/
theorem getSignature_eq {result signature : Bytes} (hpassword : IsPassword passwordMemory password)
    (hsalt : IsSalt saltMemory salt) (sha : Sha256)
    (h : getSignature sha result passwordMemory saltMemory = some signature) :
    signature = sha.digest ((salted password salt).take SHA256_HASH_WORDS) := by
  obtain ⟨data, hdata, hsignature⟩ := Option.map_eq_some_iff.mp h
  rw [← hsignature, signatureInput_eq hpassword hsalt hdata, List.take_of_length_le]
  exact (sha.length_digest _).le

/-- It is never the whole of password and salt that is hashed, and two passwords that agree in the
first eight bytes have the same signature. -/
theorem signature_input_never {result : Bytes} (hpassword : IsPassword passwordMemory password)
    (hsalt : IsSalt saltMemory salt) :
    signatureInput result passwordMemory saltMemory ≠ some (salted password salt) ∧
      (∀ result' passwordMemory' password', IsPassword passwordMemory' password' →
        ∀ data, signatureInput result passwordMemory saltMemory = some data →
          ∀ data', signatureInput result' passwordMemory' saltMemory = some data' →
            (data = data' ↔ (salted password salt).take SHA256_HASH_WORDS =
              (salted password' salt).take SHA256_HASH_WORDS)) ∧
      ∀ sha signature, getSignature sha result passwordMemory saltMemory = some signature →
        signature = sha.digest ((salted password salt).take SHA256_HASH_WORDS) := by
  refine ⟨?_, ?_, fun sha _ => getSignature_eq hpassword hsalt sha⟩
  · intro h
    have hlength := congrArg List.length (signatureInput_eq hpassword hsalt h)
    have hlong := length_salted hsalt password
    rw [List.length_take] at hlength
    change 64 ≤ _ at hlong
    change _ = min 8 _ at hlength
    omega
  · intro result' passwordMemory' password' hpassword' data hdata data' hdata'
    rw [signatureInput_eq hpassword hsalt hdata, signatureInput_eq hpassword' hsalt hdata']

end Signature

/-- Text without NUL in memory. -/
theorem cString_encode {text : String} (hnul : Char.ofNat 0 ∉ text.toList) (behind : Bytes) :
    cString (encode text ++ 0 :: behind) = encode text :=
  cString_plain (fun hmem => hnul ((mem_encode_ascii (by decide) text).mp hmem)) behind

def digitSalt : String := "0123456789012345678901234567890123456789012345678901234567890123"

theorem isSalt_digits : IsSalt (encode digitSalt ++ [0]) digitSalt :=
  ⟨cString_encode (by decide) [], by decide⟩

theorem isPassword_one : IsPassword (encode "password1" ++ [0]) "password1" :=
  ⟨cString_encode (by decide) [], List.all_iff_forall_prop.mp rfl, by decide⟩

theorem isPassword_two : IsPassword (encode "password2" ++ [0]) "password2" :=
  ⟨cString_encode (by decide) [], List.all_iff_forall_prop.mp rfl, by decide⟩

/-- The signature of the password `password1` is that of `password`. -/
theorem signature_input_never_password :
    signatureInput (List.replicate 81 0) (encode "password1" ++ [0]) (encode digitSalt ++ [0]) ≠
        some (salted "password1" digitSalt) ∧
      ∀ sha signature, getSignature sha (List.replicate 81 0) (encode "password1" ++ [0])
          (encode digitSalt ++ [0]) = some signature → signature = sha.digest (encode "password") := by
  have hfront : (salted "password1" digitSalt).take SHA256_HASH_WORDS = encode "password" := by
    decide +kernel
  obtain ⟨hnever, -, hsignature⟩ := signature_input_never isPassword_one isSalt_digits
  rw [hfront] at hsignature
  exact ⟨hnever, hsignature⟩

/-- Both passwords are hashed as `password`. -/
theorem signature_collision : ¬ ∀ (result passwordMemory saltMemory : Bytes)
    (password salt : String), result.length = PASSWORD_LEN + SALT_LEN + 1 →
    IsPassword passwordMemory password → IsSalt saltMemory salt →
    signatureInput result passwordMemory saltMemory = some (salted password salt) ∧
      ∀ passwordMemory' password', IsPassword passwordMemory' password' → password ≠ password' →
        signatureInput result passwordMemory saltMemory ≠
          signatureInput result passwordMemory' saltMemory := by
  intro h
  have hresult : (List.replicate 81 (0 : UInt8)).length = PASSWORD_LEN + SALT_LEN + 1 :=
    List.length_replicate
  have hsame := (h _ _ _ _ _ hresult isPassword_one isSalt_digits).2 _ _ isPassword_two (by decide)
  rw [signatureInput_defined hresult isPassword_one isSalt_digits (by decide +kernel),
    signatureInput_defined hresult isPassword_two isSalt_digits (by decide +kernel)] at hsame
  exact hsame (by decide +kernel)

end CompSys.CourseServer
