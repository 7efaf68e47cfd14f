import Epoch.Pd.Registry

/-!
# Console logins (`epoch-pd/src/console/auth.rs`, `console/mod.rs`)

`secret_matches` pads the shorter secret with zero bytes and folds the lengths into one byte.  The
byte is zero when the lengths agree modulo 256, so a secret also matches itself followed by 256 zero
bytes (`padded_secret_matches`); a login keeps them, since they are no white space.

`secret_matches_exact_iff`: the comparison is equality, and a login that succeeds presented the
stored secret, except for secrets that differ by such a padding.
-/

namespace Epoch.Pd

def asBytes (s : String) : Bytes := s.toByteArray.data.toList

/-- The loop of `secret_matches`. -/
def foldDiff (a b : Bytes) (diff : UInt8) (n : ℕ) : UInt8 :=
  (List.range n).foldl (fun diff i => diff ||| (a.getD i 0 ^^^ b.getD i 0)) diff

def secretMatches (stored presented : String) : Bool :=
  let a := asBytes stored
  let b := asBytes presented
  foldDiff a b (UInt8.ofNat (a.length ^^^ b.length)) (max a.length b.length) = 0

/-! ## Logins -/

/-- The Unicode property `White_Space`, as `str::trim` uses it. -/
def isWhitespace (c : Char) : Bool :=
  let n := c.toNat
  (9 ≤ n && n ≤ 13) || n = 0x20 || n = 0x85 || n = 0xa0 || n = 0x1680 || (0x2000 ≤ n && n ≤ 0x200a)
    || n = 0x2028 || n = 0x2029 || n = 0x202f || n = 0x205f || n = 0x3000

def trim (s : List Char) : String :=
  .ofList ((s.dropWhile isWhitespace).reverse.dropWhile isWhitespace).reverse

def parseLogin (body : String) : Option (String × String) :=
  match body.toList.span (· ≠ '\n') with
  | (_, []) => none
  | (ak, _ :: sk) => if trim ak ≠ "" ∧ trim sk ≠ "" then some (trim ak, trim sk) else none

/-- How a login is answered; `Ok` issues a session for the access key. -/
inductive LoginReply
  | MissingCredentials
  | InvalidCredentials
  | Ok (accessKey : String) (role : ConsoleRole)
deriving DecidableEq

/-- `handle_login`, for a body that is text. -/
def handleLogin (credentials : CredentialIndex) (body : String) : LoginReply :=
  match parseLogin body with
  | none => .MissingCredentials
  | some (accessKey, secretKey) =>
    match credentials.get accessKey with
    | none => .InvalidCredentials
    | some cred =>
      if secretMatches cred.secretKey secretKey then .Ok accessKey cred.role else .InvalidCredentials

/-! ## The comparison -/

/-- One of the two is the other followed by a positive multiple of 256 zero bytes. -/
def Padded (a b : String) : Prop :=
  ∃ k, asBytes b = asBytes a ++ List.replicate (256 * (k + 1)) 0
    ∨ asBytes a = asBytes b ++ List.replicate (256 * (k + 1)) 0

lemma asBytes_inj {a b : String} : asBytes a = asBytes b ↔ a = b := by
  rw [asBytes, asBytes, Array.toList_inj, ← ByteArray.ext_iff, String.toByteArray_inj]

section Bytes

variable {a b : Bytes}

lemma foldDiff_eq_zero {diff : UInt8} {n : ℕ} :
    foldDiff a b diff n = 0 ↔ diff = 0 ∧ ∀ i < n, a.getD i 0 = b.getD i 0 := by
  induction n with
  | zero => simp [foldDiff]
  | succ n ih =>
    rw [foldDiff, List.range_succ, List.foldl_append, List.foldl_cons, List.foldl_nil,
      UInt8.or_eq_zero_iff, UInt8.xor_eq_zero_iff, ← foldDiff, ih, and_assoc]
    simp only [Nat.forall_lt_succ_right]

lemma lengths_eq_zero : UInt8.ofNat (a.length ^^^ b.length) = 0
    ↔ a.length % 256 = b.length % 256 := by
  rw [UInt8.ofNat_xor, UInt8.xor_eq_zero_iff, ← UInt8.toNat_inj]
  simp

/-- Against a longer one, what matches is padded. -/
lemma foldDiff_iff_of_le (hle : a.length ≤ b.length) :
    foldDiff a b (UInt8.ofNat (a.length ^^^ b.length)) (max a.length b.length) = 0
      ↔ ∃ k, b = a ++ List.replicate (256 * k) 0 := by
  rw [foldDiff_eq_zero, lengths_eq_zero, max_eq_right hle]
  constructor
  · rintro ⟨hlen, hsame⟩
    refine ⟨(b.length - a.length) / 256, List.ext_getElem ?_ fun i hi hi' => ?_⟩
    · rw [List.length_append, List.length_replicate]
      omega
    · have hget := hsame i hi
      rw [List.getD_eq_getElem b 0 hi] at hget
      rw [← hget]
      by_cases hlt : i < a.length
      · rw [List.getD_eq_getElem a 0 hlt, List.getElem_append_left hlt]
      · rw [List.getD_eq_default a 0 (not_lt.mp hlt), List.getElem_append_right (not_lt.mp hlt),
          List.getElem_replicate]
  · rintro ⟨k, rfl⟩
    refine ⟨by simp, fun i hi => ?_⟩
    by_cases hlt : i < a.length
    · rw [List.getD_append _ _ _ _ hlt]
    · rw [List.getD_eq_default a 0 (not_lt.mp hlt), List.getD_append_right _ _ _ _ (not_lt.mp hlt)]
      simp

lemma foldDiff_comm (diff : UInt8) (n : ℕ) : foldDiff a b diff n = foldDiff b a diff n := by
  unfold foldDiff
  congr 1
  funext diff i
  rw [UInt8.xor_comm]

end Bytes

/-- Secrets match when they are equal or padded. -/
lemma secretMatches_iff (a b : String) : secretMatches a b = true ↔ a = b ∨ Padded a b := by
  rw [secretMatches, decide_eq_true_eq, ← asBytes_inj]
  rcases le_total (asBytes a).length (asBytes b).length with hle | hle
  · rw [foldDiff_iff_of_le hle]
    constructor
    · rintro ⟨_ | k, hk⟩
      · exact Or.inl (by simpa using hk.symm)
      · exact Or.inr ⟨k, Or.inl hk⟩
    · rintro (heq | ⟨k, hk | hk⟩)
      · exact ⟨0, by simpa using heq.symm⟩
      · exact ⟨k + 1, hk⟩
      · rw [hk, List.length_append, List.length_replicate] at hle
        omega
  · rw [foldDiff_comm, Nat.xor_comm, max_comm, foldDiff_iff_of_le hle]
    constructor
    · rintro ⟨_ | k, hk⟩
      · exact Or.inl (by simpa using hk)
      · exact Or.inr ⟨k, Or.inr hk⟩
    · rintro (heq | ⟨k, hk | hk⟩)
      · exact ⟨0, by simpa using heq⟩
      · rw [hk, List.length_append, List.length_replicate] at hle
        omega
      · exact ⟨k + 1, hk⟩

lemma Padded.ne {a b : String} (h : Padded a b) : a ≠ b := by
  rintro rfl
  obtain ⟨k, hk | hk⟩ := h <;>
    · have hlen := congrArg List.length hk
      rw [List.length_append, List.length_replicate] at hlen
      omega

/-- **The comparison is equality, and a login that succeeds presented the stored secret, exactly when
the two secrets do not differ by a padding with zero bytes.** -/
theorem secret_matches_exact_iff (a b : String) (credentials : CredentialIndex) (body : String) :
    ((secretMatches a b = true ↔ a = b) ↔ ¬ Padded a b)
      ∧ ((∀ accessKey role, handleLogin credentials body = .Ok accessKey role →
          ∃ cred, credentials.get accessKey = some cred
            ∧ parseLogin body = some (accessKey, cred.secretKey))
        ↔ ∀ accessKey secretKey cred, parseLogin body = some (accessKey, secretKey) →
          credentials.get accessKey = some cred → ¬ Padded cred.secretKey secretKey) := by
  refine ⟨?_, ?_⟩
  · rw [secretMatches_iff]
    exact ⟨fun h hpad => hpad.ne (h.mp (Or.inr hpad)), fun hnot => by simp [hnot]⟩
  · constructor
    · intro h accessKey secretKey cred hparse hcred hpad
      have hlogin : handleLogin credentials body = .Ok accessKey cred.role := by
        simp [handleLogin, hparse, hcred, (secretMatches_iff _ _).mpr (Or.inr hpad)]
      obtain ⟨cred', hcred', hparse'⟩ := h accessKey cred.role hlogin
      obtain rfl := Option.some.inj (hcred.symm.trans hcred')
      rw [hparse, Option.some.injEq, Prod.mk.injEq] at hparse'
      exact hpad.ne hparse'.2.symm
    · intro h accessKey role hlogin
      rw [handleLogin] at hlogin
      cases hparse : parseLogin body with
      | none => simp [hparse] at hlogin
      | some pair =>
        obtain ⟨ak, sk⟩ := pair
        cases hcred : credentials.get ak with
        | none => simp [hparse, hcred] at hlogin
        | some cred =>
          simp only [hparse, hcred] at hlogin
          split_ifs at hlogin with hmatches
          obtain ⟨rfl, -⟩ := LoginReply.Ok.inj hlogin
          rcases (secretMatches_iff _ _).mp hmatches with rfl | hpad
          · exact ⟨cred, hcred, rfl⟩
          · exact absurd hpad (h ak sk cred hparse hcred)

/-- The stored secret `s` and a login that presents it with 256 zero bytes behind it. -/
def paddedSecret : String := "s" ++ .ofList (List.replicate 256 '\x00')

theorem padded_secret_matches :
    secretMatches "s" paddedSecret = true ∧ "s" ≠ paddedSecret
      ∧ handleLogin (OrdMap.empty.insert "a" ⟨"s", none, .Admin⟩) ("a\n" ++ paddedSecret)
        = .Ok "a" .Admin := by
  decide +kernel

end Epoch.Pd
