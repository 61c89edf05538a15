import Kyuzen.Base.Fields
import Kyuzen.Base.Text
import Mathlib.Data.List.TakeWhile
import Mathlib.Data.Nat.Digits.Lemmas

/-!
The account file `users.sys`: one record `name:password:uid` a line. It is written by
`first_time_setup` of `login.c` and `user_create` of `shell_core.c`, and read by
`parse_auth` of `login.c` and by `current_username` and `current_password_match` of
`userutil.c`. Each reader has its own loop over the records.
-/

namespace Kyuzen.Shell

open List Nat

variable {n : Nat} {buffer : Text}

/-- A string argument in C: its bytes before the terminator. -/
structure CString where
  bytes : Text
  noNul : 0 ∉ bytes

def colon : UInt8 := 58
def newline : UInt8 := 10

/-- The string that a buffer holds: what stands before the first zero. -/
def cstr (s : Text) : Text := s.takeWhile (· ≠ 0)

/-- `users.sys` in the 1024-byte buffer of its readers. -/
def readUsers (file : Text) : Text := cstr (file.take 1023)

def numToStr (n : Nat) : Text :=
  if n = 0 then [48] else ((digits 10 n).take 15).reverse.map fun d => UInt8.ofNat (48 + d)

/-- The value that the readers give a byte of the uid field: `char` is signed. -/
def digitValue (c : UInt8) : UInt32 := (c.toInt8.toInt32 - 48).toUInt32

def parseUid (s : Text) : UInt32 := s.foldl (fun v c => v * 10 + digitValue c) 0

/-! ## The writers -/

structure Account where
  name : Text
  pass : Text
  uid : UInt32

def Account.record (a : Account) : Text :=
  a.name ++ colon :: (a.pass ++ colon :: (numToStr a.uid.toNat ++ [newline]))

/-- A key at a password prompt: 31 characters at most, and backspace. -/
def typeKey (password : Text) (c : UInt8) : Text :=
  if c = 8 then password.dropLast
  else if password.length < 31 then password ++ [c]
  else password

/-- The keys up to the first Enter give the password of `root`. -/
def typedPassword (keys : Text) : Text := (keys.takeWhile (· ≠ newline)).foldl typeKey []

def rootName : Text := [114, 111, 111, 116]

/-- The account file, and the accounts that the writers reported. -/
structure Users where
  file : Text
  accounts : List Account

def firstTimeSetup (keys : Text) : Users :=
  let root : Account := ⟨rootName, cstr (typedPassword keys), 0⟩
  ⟨root.record, [root]⟩

def newUid (buffer : Text) : UInt32 :=
  let lines := buffer.count newline
  UInt32.ofNat (1000 + if lines > 0 then lines - 1 else 0)

/-- `user_create`. A record that does not fit into the buffer is refused, and the file
stays as it is. -/
def userCreate (s : Users) (name pass : CString) : Users :=
  let buffer := readUsers s.file
  let account : Account := ⟨name.bytes, pass.bytes, newUid buffer⟩
  if buffer.length + account.record.length > 1023 then s
  else ⟨buffer ++ account.record, s.accounts ++ [account]⟩

/-- The file after the setup and a sequence of calls of `user_create`. -/
def produced (keys : Text) (calls : List (CString × CString)) : Users :=
  calls.foldl (fun s call => userCreate s call.1 call.2) (firstTimeSetup keys)

/-! ## The readers -/

/-- The loop of `parse_auth`. Fields are cut at 31 and 15 characters, and the rest of
a field is skipped. -/
def parseAuthLoop (user pass : Text) : Nat → Text → Option UInt32
  | 0, _ => none
  | fuel + 1, buffer =>
    if buffer = [] then none
    else
      let (fUser, buffer) := cutField colon buffer
      let (fPass, buffer) := cutField colon buffer
      let (fUid, buffer) := cutField newline buffer
      if user = fUser.take 31 ∧ pass = fPass.take 31 then some (parseUid (fUid.take 15))
      else parseAuthLoop user pass fuel buffer

def parseAuth (file user pass : Text) : Option UInt32 :=
  parseAuthLoop user pass (readUsers file).length (readUsers file)

/-- The loop of `current_username`. A name that is cut at 31 characters is not skipped
to its end. -/
def currentUsernameLoop (want : UInt32) (cap : Nat) : Nat → Text → Option Text
  | 0, _ => none
  | fuel + 1, buffer =>
    if buffer = [] then none
    else
      let (fUser, buffer) := cutFieldMax 31 colon buffer
      let (_, buffer) := cutField colon buffer
      let (fUid, buffer) := cutFieldMax 15 newline buffer
      if fUser ≠ [] ∧ parseUid fUid = want then some (fUser.take (cap - 1))
      else currentUsernameLoop want cap fuel buffer

/-- `current_username` of a task with this uid. -/
def currentUsername (file : Text) (uid : UInt32) (cap : Nat) : Option Text :=
  if cap = 0 then none
  else currentUsernameLoop uid cap (readUsers file).length (readUsers file)

/-- The loop of `current_password_match`. -/
def currentPasswordMatchLoop (want : UInt32) (pw : Text) : Nat → Text → Bool
  | 0, _ => false
  | fuel + 1, buffer =>
    if buffer = [] then false
    else
      let (_, buffer) := cutField colon buffer
      let (fPass, buffer) := cutFieldMax 31 colon buffer
      let (fUid, buffer) := cutFieldMax 15 newline buffer
      if parseUid fUid = want ∧ fPass = pw then true
      else currentPasswordMatchLoop want pw fuel buffer

/-- `current_password_match` of a task with this uid. -/
def currentPasswordMatch (file : Text) (uid : UInt32) (pw : Text) : Bool :=
  currentPasswordMatchLoop uid pw (readUsers file).length (readUsers file)

/-! ## The uid field -/

theorem digit_value {d : Nat} (h : d < 10) :
    digitValue (UInt8.ofNat (48 + d)) = UInt32.ofNat d := by
  interval_cases d <;> rfl

theorem numToStr_eq (hn : n ≠ 0) (h : n < 10 ^ 15) :
    numToStr n = (digits 10 n).reverse.map fun d => UInt8.ofNat (48 + d) := by
  have hlen : (digits 10 n).length ≤ 15 := (digits_length_le_iff (by decide) n).mpr h
  rw [numToStr, if_neg hn, take_of_length_le hlen]

theorem length_numToStr (h : n < 10 ^ 15) : (numToStr n).length ≤ 15 := by
  by_cases hn : n = 0
  · rw [hn]
    decide
  · rw [numToStr_eq hn h, length_map, length_reverse]
    exact (digits_length_le_iff (by decide) n).mpr h

theorem mem_numToStr {c : UInt8} (hc : c ∈ numToStr n) : ∃ d < 10, c = UInt8.ofNat (48 + d) := by
  rw [numToStr] at hc
  split at hc
  · exact ⟨0, by decide, mem_singleton.mp hc⟩
  · obtain ⟨d, hd, rfl⟩ := mem_map.mp hc
    have hmem := mem_of_mem_take (mem_reverse.mp hd)
    exact ⟨d, digits_lt_base (by decide) hmem, rfl⟩

theorem notMem_numToStr {c : UInt8} (hc : ∀ d < 10, c ≠ UInt8.ofNat (48 + d)) : c ∉ numToStr n := by
  intro h
  obtain ⟨d, hd, heq⟩ := mem_numToStr h
  exact hc d hd heq

theorem parseUid_append (s t : Text) :
    parseUid (s ++ t) = t.foldl (fun v c => v * 10 + digitValue c) (parseUid s) :=
  foldl_append

theorem parseUid_digits (ds : List Nat) (h : ∀ d ∈ ds, d < 10) :
    parseUid (ds.reverse.map fun d => UInt8.ofNat (48 + d)) = UInt32.ofNat (ofDigits 10 ds) := by
  induction ds with
  | nil => rfl
  | cons d ds ih =>
    have hrest : ∀ d ∈ ds, d < 10 := fun e he => h e (.tail _ he)
    rw [reverse_cons, map_append, parseUid_append, ih hrest, map_singleton,
      foldl_cons, foldl_nil, digit_value (h d (.head _)), ofDigits_cons]
    rw [UInt32.ofNat_add, UInt32.ofNat_mul]
    exact (UInt32.add_comm _ _).trans (congrArg _ (UInt32.mul_comm _ _))

theorem parseUid_numToStr (k : UInt32) : parseUid (numToStr k.toNat) = k := by
  by_cases hk : k.toNat = 0
  · rw [hk, show k = 0 from UInt32.toNat_inj.mp hk]
    rfl
  · have hlt : k.toNat < 10 ^ 15 := lt_trans k.toNat_lt (by decide)
    rw [numToStr_eq hk hlt, parseUid_digits _ fun d hd => digits_lt_base (by decide) hd,
      ofDigits_digits, UInt32.ofNat_toNat]

/-! ## The records of the file -/

open Account

/-- The file is the records of the accounts. A uid is smaller than the next one. -/
structure Users.Inv (s : Users) : Prop where
  file : s.file = s.accounts.flatMap record
  fits : s.file.length ≤ 1023
  noNul : 0 ∉ s.file
  lines : 0 < s.file.count newline
  uids : ∀ a ∈ s.accounts, a.uid.toNat < 1000 + (s.file.count newline - 1)
  distinct : (s.accounts.map uid).Nodup

theorem notMem_cstr (s : Text) : 0 ∉ cstr s := by
  intro h
  have hne := all_eq_true.mp all_takeWhile 0 h
  exact of_decide_eq_true hne rfl

theorem cstr_eq {s : Text} (h : 0 ∉ s) : cstr s = s := by
  rw [cstr, takeWhile_eq_self_iff]
  intro c hc
  exact decide_eq_true fun heq => h (heq ▸ hc)

theorem Users.Inv.readUsers_eq {s : Users} (hs : s.Inv) : readUsers s.file = s.file := by
  rw [readUsers, take_of_length_le hs.fits, cstr_eq hs.noNul]

theorem notMem_record {a : Account} (hname : 0 ∉ a.name) (hpass : 0 ∉ a.pass) : 0 ∉ a.record := by
  have hdigits : (0 : UInt8) ∉ numToStr a.uid.toNat := notMem_numToStr (by decide)
  simp [record, hname, hpass, hdigits, colon, newline]

theorem count_record_pos (a : Account) : 0 < a.record.count newline := by
  apply count_pos_iff.mpr
  simp [record]

theorem length_typeKey {password : Text} (h : password.length ≤ 31) (c : UInt8) :
    (typeKey password c).length ≤ 31 := by
  unfold typeKey
  split
  · rw [length_dropLast]
    omega
  split
  · rw [length_append, length_singleton]
    omega
  · exact h

theorem length_typedPassword (keys : Text) : (typedPassword keys).length ≤ 31 := by
  rw [typedPassword]
  have run : ∀ (l password : Text), password.length ≤ 31 →
      (l.foldl typeKey password).length ≤ 31 := by
    intro l
    induction l with
    | nil => exact fun _ h => h
    | cons c l ih => exact fun password h => ih _ (length_typeKey h c)
  exact run _ [] (by decide)

theorem Users.Inv.firstTimeSetup (keys : Text) : (firstTimeSetup keys).Inv := by
  have hpass : (cstr (typedPassword keys)).length ≤ 31 :=
    le_trans (takeWhile_sublist _).length_le (length_typedPassword keys)
  constructor
  case file => simp [Shell.firstTimeSetup]
  case fits =>
    have hroot : rootName.length = 4 := rfl
    have hzero : (numToStr (0 : UInt32).toNat).length = 1 := rfl
    simp only [Shell.firstTimeSetup, record, length_append, length_cons, length_nil, hroot, hzero]
    omega
  case noNul =>
    have hroot : 0 ∉ rootName := by decide
    exact notMem_record hroot (notMem_cstr _)
  case lines => exact count_record_pos _
  case uids =>
    intro a ha
    rw [mem_singleton.mp ha]
    exact lt_of_lt_of_le (succ_pos 999) (Nat.le_add_right 1000 _)
  case distinct => exact nodup_singleton _

theorem toNat_newUid (hlen : buffer.length ≤ 1023) (hlines : 0 < buffer.count newline) :
    (newUid buffer).toNat = 1000 + (buffer.count newline - 1) := by
  have hcount : buffer.count newline ≤ buffer.length := count_le_length
  have hsize : UInt32.size = 2 ^ 32 := rfl
  rw [newUid, if_pos hlines, UInt32.toNat_ofNat_of_lt' (by omega)]

theorem Users.Inv.userCreate {s : Users} (hs : s.Inv) (name pass : CString) :
    (userCreate s name pass).Inv := by
  unfold Shell.userCreate
  rw [hs.readUsers_eq]
  dsimp only
  split
  · exact hs
  next hfits =>
    generalize ha : Account.mk name.bytes pass.bytes (newUid s.file) = a at hfits
    have huid : a.uid.toNat = 1000 + (s.file.count newline - 1) := by
      rw [← ha]
      exact toNat_newUid hs.fits hs.lines
    have hline := count_record_pos a
    have hlines := hs.lines
    constructor
    case file => rw [flatMap_append, ← hs.file, flatMap_singleton]
    case fits =>
      rw [length_append]
      omega
    case noNul =>
      have hrecord : 0 ∉ a.record := by
        rw [← ha]
        exact notMem_record name.noNul pass.noNul
      exact fun h => (mem_append.mp h).elim hs.noNul hrecord
    case lines =>
      rw [count_append]
      omega
    case uids =>
      intro b hb
      rw [count_append]
      rcases mem_append.mp hb with hb | hb
      · have := hs.uids b hb
        omega
      · rw [mem_singleton.mp hb]
        omega
    case distinct =>
      rw [map_append, nodup_append]
      refine ⟨hs.distinct, nodup_singleton _, ?_⟩
      rintro k hk k' hk' rfl
      obtain ⟨b, hb, hbk⟩ := mem_map.mp hk
      have hlt := hs.uids b hb
      rw [hbk, mem_singleton.mp hk', huid] at hlt
      exact lt_irrefl _ hlt

theorem Users.Inv.produced (keys : Text) (calls : List (CString × CString)) :
    (produced keys calls).Inv := by
  unfold Shell.produced
  generalize hs : Shell.firstTimeSetup keys = s
  have hinv : s.Inv := hs ▸ Users.Inv.firstTimeSetup keys
  clear hs
  induction calls generalizing s with
  | nil => exact hinv
  | cons call calls ih => exact ih _ (hinv.userCreate call.1 call.2)

/-! ## What the readers find -/

structure Account.Readable (a : Account) : Prop where
  name_colon : colon ∉ a.name
  name_length : a.name.length ≤ 31
  name_ne : a.name ≠ []
  pass_colon : colon ∉ a.pass
  pass_length : a.pass.length ≤ 31

theorem length_uid (a : Account) : (numToStr a.uid.toNat).length ≤ 15 :=
  length_numToStr (lt_trans a.uid.toNat_lt (by decide))

theorem newline_uid (a : Account) : newline ∉ numToStr a.uid.toNat := notMem_numToStr (by decide)

theorem record_append (a : Account) (rest : Text) : a.record ++ rest =
      a.name ++ colon :: (a.pass ++ colon :: (numToStr a.uid.toNat ++ newline :: rest)) := by
  simp [record]

theorem record_append_ne (a : Account) (rest : Text) : a.record ++ rest ≠ [] := by
  simp [record]

variable {a : Account} {l : List Account} {fuel : Nat}

theorem parseAuthLoop_record (ha : a.Readable) (user pass rest : Text) :
    parseAuthLoop user pass (fuel + 1) (a.record ++ rest) =
      if (a.name, a.pass) = (user, pass) then some a.uid
      else parseAuthLoop user pass fuel rest := by
  rw [parseAuthLoop, if_neg (record_append_ne a rest), record_append, cutField_append ha.name_colon]
  dsimp only
  rw [cutField_append ha.pass_colon]
  rw [cutField_append (newline_uid a)]
  rw [take_of_length_le ha.name_length, take_of_length_le ha.pass_length,
    take_of_length_le (length_uid a), parseUid_numToStr]
  have heq : (a.name, a.pass) = (user, pass) ↔ user = a.name ∧ pass = a.pass := by
    rw [Prod.mk.injEq]
    exact and_congr eq_comm eq_comm
  exact if_congr heq.symm rfl rfl

theorem currentUsernameLoop_record (ha : a.Readable) (want : UInt32) (cap : Nat) (rest : Text) :
    currentUsernameLoop want cap (fuel + 1) (a.record ++ rest) =
      if a.uid = want then some (a.name.take (cap - 1))
      else currentUsernameLoop want cap fuel rest := by
  rw [currentUsernameLoop, if_neg (record_append_ne a rest), record_append,
    cutFieldMax_append ha.name_colon ha.name_length]
  dsimp only
  rw [cutField_append ha.pass_colon]
  rw [cutFieldMax_append (newline_uid a) (length_uid a)]
  rw [parseUid_numToStr]
  simp [ha.name_ne]

theorem currentPasswordMatchLoop_record (ha : a.Readable) (want : UInt32) (pw rest : Text) :
    currentPasswordMatchLoop want pw (fuel + 1) (a.record ++ rest) =
      if a.uid = want ∧ a.pass = pw then true else currentPasswordMatchLoop want pw fuel rest := by
  rw [currentPasswordMatchLoop, if_neg (record_append_ne a rest), record_append,
    cutField_append ha.name_colon]
  dsimp only
  rw [cutFieldMax_append ha.pass_colon ha.pass_length]
  rw [cutFieldMax_append (newline_uid a) (length_uid a)]
  rw [parseUid_numToStr]

section
variable (hl : ∀ a ∈ l, a.Readable) (hfuel : l.length ≤ fuel)
include hl hfuel

/-- A loop that takes a record in each turn finds the first account it looks for. -/
theorem loop_records {β : Type} {loop : Nat → Text → β} {found : Account → Prop}
    [DecidablePred found] {val : Account → β} {e : β} (hnil : ∀ fuel, loop fuel [] = e)
    (hcons : ∀ a fuel rest, a.Readable →
      loop (fuel + 1) (a.record ++ rest) = if found a then val a else loop fuel rest) :
    loop fuel (l.flatMap record) = (l.find? found).elim e val := by
  induction l generalizing fuel with
  | nil => exact hnil fuel
  | cons a l ih =>
    obtain ⟨fuel, rfl⟩ := Nat.exists_eq_add_of_le' (lt_of_lt_of_le (succ_pos _) hfuel)
    rw [flatMap_cons, hcons a fuel _ (hl a (.head _)),
      ih (fun b hb => hl b (.tail _ hb)) (le_of_succ_le_succ hfuel)]
    split <;> simp [*]

theorem parseAuthLoop_records (user pass : Text) : parseAuthLoop user pass fuel (l.flatMap record) =
      (l.find? fun a => (a.name, a.pass) = (user, pass)).map uid := by
  rw [loop_records hl hfuel (fun fuel => by cases fuel <;> rfl)
    fun a fuel rest ha => parseAuthLoop_record ha user pass rest]
  cases find? _ l <;> rfl

theorem currentUsernameLoop_records (want : UInt32) (cap : Nat) :
    currentUsernameLoop want cap fuel (l.flatMap record) =
      (l.find? fun a => a.uid = want).map fun a => a.name.take (cap - 1) := by
  rw [loop_records hl hfuel (fun fuel => by cases fuel <;> rfl)
    fun a fuel rest ha => currentUsernameLoop_record ha want cap rest]
  cases find? _ l <;> rfl

theorem currentPasswordMatchLoop_records (want : UInt32) (pw : Text) :
    currentPasswordMatchLoop want pw fuel (l.flatMap record) =
      l.any fun a => a.uid = want ∧ a.pass = pw := by
  rw [loop_records hl hfuel (fun fuel => by cases fuel <;> rfl)
    fun a fuel rest ha => currentPasswordMatchLoop_record ha want pw rest, ← isSome_find?]
  cases find? _ l <;> rfl

end

/-- What `parse_auth` accepts can be read from a record. -/
theorem parseAuthLoop_some {user pass : Text} {k : UInt32}
    (h : parseAuthLoop user pass fuel buffer = some k) :
    (colon ∉ user ∧ user.length ≤ 31) ∧ colon ∉ pass ∧ pass.length ≤ 31 := by
  induction fuel generalizing buffer with
  | zero => cases h
  | succ fuel ih =>
    rw [parseAuthLoop] at h
    split at h
    · cases h
    dsimp only at h
    split at h
    next heq =>
      have taken : ∀ (s : Text), colon ∉ (cutField colon s).1.take 31 ∧
          ((cutField colon s).1.take 31).length ≤ 31 := fun s =>
        ⟨fun hc => notMem_cutField colon s (mem_of_mem_take hc), length_take_le _ _⟩
      rw [heq.1, heq.2]
      exact ⟨taken _, taken _⟩
    · exact ih h

theorem currentUsernameLoop_some {want : UInt32} {cap : Nat} {name : Text} (hcap : 1 < cap)
    (h : currentUsernameLoop want cap fuel buffer = some name) : name ≠ [] := by
  induction fuel generalizing buffer with
  | zero => cases h
  | succ fuel ih =>
    rw [currentUsernameLoop] at h
    split at h
    · cases h
    dsimp only at h
    split at h
    next hfound =>
      intro hnil
      rw [hnil, Option.some_inj, take_eq_nil_iff] at h
      exact h.elim (by omega) hfound.1
    · exact ih h

/-! ## Reading back -/

/-- The readers answer as the list of accounts does. -/
structure Users.ReadsBack (s : Users) : Prop where
  auth : ∀ user pass k, parseAuth s.file user pass = some k ↔
    ∃ a ∈ s.accounts, a.name = user ∧ a.pass = pass ∧ a.uid = k
  distinct : (s.accounts.map uid).Nodup
  username : ∀ uid cap name, 0 < cap → (currentUsername s.file uid cap = some name ↔
    ∃ a ∈ s.accounts, a.uid = uid ∧ a.name.take (cap - 1) = name)
  password : ∀ uid pw, currentPasswordMatch s.file uid pw = true ↔
    ∃ a ∈ s.accounts, a.uid = uid ∧ a.pass = pw

def Users.NoTwins (s : Users) : Prop := (s.accounts.map fun a => (a.name, a.pass)).Nodup

theorem length_le_flatMap (l : List Account) : l.length ≤ (l.flatMap record).length := by
  induction l with
  | nil => exact le_rfl
  | cons a l ih =>
    have hrecord := length_pos_iff.mpr (record_append_ne a [])
    rw [append_nil] at hrecord
    rw [flatMap_cons, length_append, length_cons]
    omega

namespace Users

variable {s : Users}

theorem Inv.readsBack (hs : s.Inv) (hl : ∀ a ∈ s.accounts, a.Readable) (htwins : s.NoTwins) :
    s.ReadsBack := by
  have hfuel := length_le_flatMap s.accounts
  constructor
  case auth =>
    intro user pass k
    rw [parseAuth, hs.readUsers_eq, hs.file, parseAuthLoop_records hl hfuel, Option.map_eq_some_iff]
    refine exists_congr fun a => ?_
    rw [find?_key htwins, Prod.mk.injEq]
    exact ⟨fun ⟨⟨ha, hname, hpass⟩, hk⟩ => ⟨ha, hname, hpass, hk⟩,
      fun ⟨ha, hname, hpass, hk⟩ => ⟨⟨ha, hname, hpass⟩, hk⟩⟩
  case distinct => exact hs.distinct
  case username =>
    intro uid cap name hcap
    rw [currentUsername, if_neg (hcap.ne'), hs.readUsers_eq, hs.file,
      currentUsernameLoop_records hl hfuel, Option.map_eq_some_iff]
    refine exists_congr fun a => ?_
    rw [find?_key hs.distinct, and_assoc]
  case password =>
    intro uid pw
    rw [currentPasswordMatch, hs.readUsers_eq, hs.file, currentPasswordMatchLoop_records hl hfuel,
      any_eq_true]
    exact exists_congr fun a => and_congr_right fun _ => decide_eq_true_iff

theorem ReadsBack.readable (h : s.ReadsBack) {a : Account} (ha : a ∈ s.accounts) : a.Readable := by
  have hauth := (h.auth a.name a.pass a.uid).mpr ⟨a, ha, rfl, rfl, rfl⟩
  obtain ⟨hname, hpass⟩ := parseAuthLoop_some hauth
  refine ⟨hname.1, hname.2, ?_, hpass.1, hpass.2⟩
  have huser := (h.username a.uid 32 _ (by decide)).mpr ⟨a, ha, rfl, rfl⟩
  intro hnil
  refine currentUsernameLoop_some (by decide) huser ?_
  rw [hnil, take_nil]

/-- Two accounts with one name and one password have different uids, and `parse_auth`
gives one of them. -/
theorem ReadsBack.noTwins (h : s.ReadsBack) : s.NoTwins := by
  refine Nodup.map_on ?_ h.distinct.of_map
  intro a ha b hb hab
  obtain ⟨hname, hpass⟩ := Prod.mk.injEq .. ▸ hab
  have hfirst := (h.auth a.name a.pass a.uid).mpr ⟨a, ha, rfl, rfl, rfl⟩
  have hsecond := (h.auth a.name a.pass b.uid).mpr ⟨b, hb, hname.symm, hpass.symm, rfl⟩
  have huid : a.uid = b.uid := Option.some.inj (hfirst.symm.trans hsecond)
  exact inj_on_of_nodup_map h.distinct ha hb huid

end Users

/-- The readers agree with the accounts created exactly when no name and no password has
a colon or more than 31 characters, no name is empty, and no two accounts share name and
password. -/
theorem users_read_back_iff (keys : Text) (calls : List (CString × CString)) :
    (produced keys calls).ReadsBack ↔
      (∀ a ∈ (produced keys calls).accounts, a.Readable) ∧ (produced keys calls).NoTwins :=
  ⟨fun h => ⟨fun _ ha => h.readable ha, h.noTwins⟩,
    fun h => (Users.Inv.produced keys calls).readsBack h.1 h.2⟩

/-- The account `a:b` with password `c` is created, and its owner cannot log in. -/
theorem users_lost_behind_colon :
    ¬ (produced [120] [(⟨[97, 58, 98], by decide⟩, ⟨[99], by decide⟩)]).ReadsBack := by
  intro h
  have hlogin := (h.auth [97, 58, 98] [99] 1000).mpr (by
    refine ⟨⟨[97, 58, 98], [99], 1000⟩, ?_, rfl, rfl, rfl⟩
    exact mem_cons_of_mem _ (mem_singleton.mpr (by rfl)))
  exact absurd hlogin (by decide +kernel)

end Kyuzen.Shell
