/-
The UTF-8 functions of st.c, with their four tables.  A rune is the number that
st keeps in 32 bits; the shifts never leave them.
-/
import Mathlib.Data.Nat.Bitwise
import Mathlib.Data.List.Basic
import Mathlib.Tactic.Ring
import Mathlib.Tactic.Linarith
import Mathlib.Tactic.Positivity

namespace Bodhi

namespace St

def utfInvalid : Nat := 0xFFFD

def utfSiz : Nat := 4

def utfbyte (i : Nat) : Nat := [0x80, 0, 0xC0, 0xE0, 0xF0].getD i 0

def utfmask (i : Nat) : Nat := [0xC0, 0x80, 0xE0, 0xF0, 0xF8].getD i 0

def utfmin (i : Nat) : Nat := [0, 0, 0x80, 0x800, 0x10000].getD i 0

def utfmax (i : Nat) : Nat :=
  [0x10FFFF, 0x7F, 0x7FF, 0xFFFF, 0x10FFFF].getD i 0

/-- The payload of a byte and the kind of byte it is: 0 for one that continues
a sequence, `len` for one that starts a sequence of that length. -/
def utf8decodebyte (c : UInt8) : Nat × Nat :=
  match (List.range (utfSiz + 1)).find?
      fun i => c.toNat &&& utfmask i == utfbyte i with
  | some i => (c.toNat &&& (0xFF ^^^ utfmask i), i)
  | none => (0, utfSiz + 1)

def utf8encodebyte (u i : Nat) : UInt8 :=
  UInt8.ofNat (utfbyte i ||| (u &&& (0xFFFFFFFF ^^^ utfmask i)))

/-- The loop at the end of `utf8validate`. -/
def utf8size (u : Nat) : Nat :=
  ((List.range' 1 utfSiz).find? fun i => u ≤ utfmax i).getD (utfSiz + 1)

def utf8validate (u i : Nat) : Nat × Nat :=
  let u :=
    if !(utfmin i ≤ u && u ≤ utfmax i) || (0xD800 ≤ u && u ≤ 0xDFFF) then
      utfInvalid
    else u
  (u, utf8size u)

/-- The bytes after the first, from the last to the first of them. -/
def encodeTail : Nat → Nat → List UInt8 → Nat × List UInt8
  | 0, u, tail => (u, tail)
  | i + 1, u, tail => encodeTail i (u >>> 6) (utf8encodebyte u 0 :: tail)

def utf8encode (u : Nat) : List UInt8 :=
  let (u, len) := utf8validate u 0
  if len > utfSiz then []
  else
    let (u, tail) := encodeTail (len - 1) u []
    utf8encodebyte u len :: tail

/-- The loop of `utf8decode`; a size of 0 asks for more bytes. -/
def decodeFrom (len : Nat) : Nat → Nat → List UInt8 → Nat × Nat
  | j, udecoded, [] =>
      if j < len then (utfInvalid, 0) else ((utf8validate udecoded len).1, len)
  | j, udecoded, c :: rest =>
      if j < len then
        let (payload, type) := utf8decodebyte c
        if type ≠ 0 then (utfInvalid, j)
        else decodeFrom len (j + 1) (udecoded <<< 6 ||| payload) rest
      else ((utf8validate udecoded len).1, len)

def utf8decode : List UInt8 → Nat × Nat
  | [] => (utfInvalid, 0)
  | c :: rest =>
      let (udecoded, len) := utf8decodebyte c
      if 1 ≤ len && len ≤ utfSiz then decodeFrom len 1 udecoded rest
      else (utfInvalid, 1)

section Bytes

/-- The byte that continues a sequence with the last six bits of a number. -/
def continuation (u : Nat) : UInt8 := UInt8.ofNat (0x80 + u % 64)

/-- The byte that starts a sequence of a length. -/
def lead (len u : Nat) : UInt8 := UInt8.ofNat (utfbyte len + u)

/-- The bits that the first byte of a sequence has room for. -/
def leadRoom (len : Nat) : Nat := [64, 128, 32, 16, 8].getD len 0

theorem utf8encodebyte_zero (u : Nat) :
    utf8encodebyte u 0 = continuation u := by
  have hlow : u &&& 0x3F = u % 64 := Nat.and_two_pow_sub_one_eq_mod u 6
  have hmask : (u &&& 0xFFFFFF3F) % 256 = u % 64 := by
    have hand := Nat.and_mod_two_pow (a := u) (b := 0xFFFFFF3F) (n := 8)
    have hsmall : u % 256 &&& 0x3F = u % 64 := by
      have := Nat.and_two_pow_sub_one_eq_mod (u % 256) 6
      simp only [Nat.reducePow, Nat.add_one_sub_one] at this
      omega
    simpa using hand.trans hsmall
  have hbits : ∀ v < 64, (0x80 ||| v) = 0x80 + v := by decide
  have hor := Nat.or_mod_two_pow (a := 0x80) (b := u &&& 0xFFFFFF3F) (n := 8)
  have hvalue : (0x80 ||| (u &&& 0xFFFFFF3F)) % 256 = 0x80 + u % 64 := by
    simp only [Nat.reducePow] at hor
    rw [hor, hmask]
    exact hbits (u % 64) (Nat.mod_lt u (by decide))
  apply UInt8.toNat.inj
  have hlt : u % 64 < 64 := Nat.mod_lt u (by decide)
  change _ % 256 = _ % 256
  rw [show utfbyte 0 = 0x80 from rfl, show 0xFFFFFFFF ^^^ utfmask 0 = 0xFFFFFF3F from rfl, hvalue]
  omega

theorem utf8encodebyte_lead : ∀ len ∈ [1, 2, 3, 4], ∀ u < leadRoom len,
    utf8encodebyte u len = lead len u := by
  decide

theorem utf8decodebyte_lead : ∀ len ∈ [1, 2, 3, 4], ∀ u < leadRoom len,
    utf8decodebyte (lead len u) = (u, len) := by
  decide

theorem utf8decodebyte_continuation (u : Nat) :
    utf8decodebyte (continuation u) = (u % 64, 0) := by
  have hall : ∀ v < 64, utf8decodebyte (continuation v) = (v, 0) := by decide
  have hsame : continuation u = continuation (u % 64) := by
    rw [continuation, continuation, Nat.mod_mod]
  rw [hsame, hall _ (Nat.mod_lt u (by decide))]

/-- A byte is known by its kind and its payload. -/
theorem eq_of_utf8decodebyte {c : UInt8} {payload len : Nat}
    (h : utf8decodebyte c = (payload, len)) :
    (len = 0 → payload < 64 ∧ c = continuation payload) ∧
      (1 ≤ len → len ≤ utfSiz → payload < leadRoom len ∧ c = lead len payload) := by
  have hall : ∀ n < 256, let d := utf8decodebyte (UInt8.ofNat n)
      (d.2 = 0 → d.1 < 64 ∧ UInt8.ofNat n = continuation d.1) ∧
        (1 ≤ d.2 → d.2 ≤ utfSiz →
          d.1 < leadRoom d.2 ∧ UInt8.ofNat n = lead d.2 d.1) := by
    decide +kernel
  have hc := hall c.toNat c.toNat_lt
  rw [UInt8.ofNat_toNat, h] at hc
  exact hc

end Bytes

section Digits

/-- The bytes that continue a sequence, for the last `6 * k` bits of a
number. -/
def digits : Nat → Nat → List UInt8
  | 0, _ => []
  | k + 1, u => continuation (u / 64 ^ k) :: digits k u

theorem digits_succ (k u : Nat) :
    digits (k + 1) u = digits k (u / 64) ++ [continuation u] := by
  induction k with
  | zero => simp [digits]
  | succ k ih =>
      have hpow : u / 64 ^ (k + 1) = u / 64 / 64 ^ k := by
        rw [Nat.div_div_eq_div_mul, Nat.pow_succ']
      rw [digits, ih, hpow]
      rfl

@[simp] theorem digits_length (k u : Nat) : (digits k u).length = k := by
  induction k with
  | zero => rfl
  | succ k ih => rw [digits, List.length_cons, ih]

theorem digits_add_mul (k u w : Nat) :
    digits k (u * 64 ^ k + w) = digits k w := by
  induction k generalizing u with
  | zero => rfl
  | succ k ih =>
      have hdiv : (u * 64 ^ (k + 1) + w) / 64 ^ k = u * 64 + w / 64 ^ k := by
        rw [Nat.pow_succ', ← Nat.mul_assoc, Nat.add_comm,
          Nat.add_mul_div_right _ _ (by positivity), Nat.add_comm]
      have hfirst : continuation (u * 64 + w / 64 ^ k) =
          continuation (w / 64 ^ k) := by
        rw [continuation, continuation, Nat.mul_add_mod']
      rw [digits, digits, hdiv, hfirst, Nat.pow_succ', ← Nat.mul_assoc, ih]

theorem encodeTail_eq (k u : Nat) (tail : List UInt8) :
    encodeTail k u tail = (u / 64 ^ k, digits k u ++ tail) := by
  induction k generalizing u tail with
  | zero => simp [encodeTail, digits]
  | succ k ih =>
      have hpow : u / 64 / 64 ^ k = u / 64 ^ (k + 1) := by
        rw [Nat.div_div_eq_div_mul, Nat.pow_succ']
      rw [encodeTail, utf8encodebyte_zero, Nat.shiftRight_eq_div_pow, ih,
        digits_succ, hpow]
      simp

theorem shift_or (u : Nat) {v : Nat} (hv : v < 64) :
    u <<< 6 ||| v = u * 64 + v := by
  have h := Nat.two_pow_add_eq_or_of_lt (i := 6) hv u
  rw [Nat.shiftLeft_eq, Nat.mul_comm, ← h]

/-- The loop reads the digits of a number back. -/
theorem decodeFrom_digits {len j k : Nat} (hk : j + k = len) (u w : Nat)
    (rest : List UInt8) :
    decodeFrom len j u (digits k w ++ rest) =
      ((utf8validate (u * 64 ^ k + w % 64 ^ k) len).1, len) := by
  induction k generalizing j u with
  | zero =>
      have hj : ¬ j < len := by omega
      cases rest <;> simp [digits, decodeFrom, hj, Nat.mod_one]
  | succ k ih =>
      have hj : j < len := by omega
      have hdigit : w / 64 ^ k % 64 < 64 := Nat.mod_lt _ (by decide)
      have hvalue : (u * 64 + w / 64 ^ k % 64) * 64 ^ k + w % 64 ^ k =
          u * 64 ^ (k + 1) + w % 64 ^ (k + 1) := by
        rw [Nat.pow_succ 64 k, Nat.mod_mul]
        ring
      simp only [digits, List.cons_append, decodeFrom, hj, if_true,
        utf8decodebyte_continuation, ne_eq, not_true_eq_false, if_false,
        shift_or u hdigit]
      rw [ih (by omega), hvalue]

/-- The loop gives up, or it has read the digits of a number. -/
theorem decodeFrom_cases {len j k : Nat} (hk : j + k = len) (u : Nat)
    (bytes : List UInt8) :
    (decodeFrom len j u bytes).1 = utfInvalid ∨
      ∃ w < 64 ^ k, ∃ rest, bytes = digits k w ++ rest ∧
        decodeFrom len j u bytes =
          ((utf8validate (u * 64 ^ k + w) len).1, len) := by
  induction k generalizing j u bytes with
  | zero =>
      have hj : ¬ j < len := by omega
      refine Or.inr ⟨0, by decide, bytes, rfl, ?_⟩
      cases bytes <;> simp [decodeFrom, hj]
  | succ k ih =>
      have hj : j < len := by omega
      cases bytes with
      | nil => exact Or.inl (by simp [decodeFrom, hj])
      | cons c rest =>
          cases hc : utf8decodebyte c with
          | mk payload type =>
            by_cases htype : type = 0
            · subst htype
              obtain ⟨hpayload, hbyte⟩ := (eq_of_utf8decodebyte hc).1 rfl
              have hnext : decodeFrom len j u (c :: rest) =
                  decodeFrom len (j + 1) (u * 64 + payload) rest := by
                simp [decodeFrom, hj, hc, shift_or u hpayload]
              rw [hnext]
              refine (ih (by omega) (u * 64 + payload) rest).imp_right ?_
              rintro ⟨w, hw, last, hrest, hresult⟩
              have hdiv : (payload * 64 ^ k + w) / 64 ^ k = payload := by
                rw [Nat.add_comm, Nat.add_mul_div_right _ _ (by positivity),
                  Nat.div_eq_of_lt hw, Nat.zero_add]
              refine ⟨payload * 64 ^ k + w, ?_, last, ?_, ?_⟩
              · rw [Nat.pow_succ']
                nlinarith
              · rw [digits, hdiv, digits_add_mul, List.cons_append, hbyte, hrest]
              · rw [hresult]
                congr 3
                ring
            · exact Or.inl (by simp [decodeFrom, hj, hc, htype])

end Digits

section Codec

theorem utf8size_eq (u : Nat) :
    utf8size u = if u ≤ 0x7F then 1 else if u ≤ 0x7FF then 2
      else if u ≤ 0xFFFF then 3 else if u ≤ 0x10FFFF then 4 else 5 := by
  have hrange : List.range' 1 utfSiz = [1, 2, 3, 4] := rfl
  rw [utf8size, hrange]
  simp only [List.find?_cons, List.find?_nil, utfmax, List.getD_cons_succ,
    List.getD_cons_zero]
  by_cases h1 : u ≤ 0x7F
  · simp [h1]
  by_cases h2 : u ≤ 0x7FF
  · simp [h1, h2]
  by_cases h3 : u ≤ 0xFFFF
  · simp [h1, h2, h3]
  by_cases h4 : u ≤ 0x10FFFF
  · simp [h1, h2, h3, h4]
  · simp [h1, h2, h3, h4, utfSiz]

/-- What `utf8validate` lets through: the scalar values in the range of a
length. -/
theorem utf8validate_fst (u len : Nat) (hu : u.isValidChar)
    (hmin : utfmin len ≤ u) (hmax : u ≤ utfmax len) :
    utf8validate u len = (u, utf8size u) := by
  have hsurrogate : ¬ (0xD800 ≤ u ∧ u ≤ 0xDFFF) := by
    rcases hu with h | h <;> omega
  have hnot : ¬ (!(utfmin len ≤ u && u ≤ utfmax len) ||
      (0xD800 ≤ u && u ≤ 0xDFFF)) = true := by
    simpa [hmin, hmax] using hsurrogate
  unfold utf8validate
  rw [if_neg hnot]

theorem utf8validate_cases (u len : Nat) :
    (utf8validate u len).1 = utfInvalid ∨
      (utf8validate u len).1 = u ∧ utfmin len ≤ u ∧ u ≤ utfmax len ∧
        ¬ (0xD800 ≤ u ∧ u ≤ 0xDFFF) := by
  unfold utf8validate
  dsimp only
  split
  · exact Or.inl rfl
  · next h =>
      refine Or.inr ⟨rfl, ?_⟩
      simp at h
      omega

/-- The bounds of the lengths, and the room that they leave in the first
byte. -/
theorem utf8size_bounds {u len : Nat} (hlen : 1 ≤ len) (hle : len ≤ utfSiz)
    (hmin : utfmin len ≤ u) (hmax : u ≤ utfmax len) :
    u / 64 ^ (len - 1) < leadRoom len ∧ (0 < utfmin len ∨ len = 1) ∧
      (utf8size u = len) := by
  have hcases : len = 1 ∨ len = 2 ∨ len = 3 ∨ len = 4 := by
    simp only [utfSiz] at hle
    omega
  rcases hcases with rfl | rfl | rfl | rfl <;>
    simp only [utfmin, utfmax, List.getD_cons_succ, List.getD_cons_zero] at hmin hmax <;>
    refine ⟨?_, by decide, ?_⟩
  all_goals first
    | (rw [utf8size_eq]; split_ifs <;> omega)
    | (simp [leadRoom]; omega)

/-- The length of a scalar value is one of its own range. -/
theorem utf8size_range {u : Nat} (hu : u.isValidChar) :
    1 ≤ utf8size u ∧ utf8size u ≤ utfSiz ∧ utfmin (utf8size u) ≤ u ∧
      u ≤ utfmax (utf8size u) := by
  have hmax : u ≤ 0x10FFFF := by rcases hu with h | h <;> omega
  rw [utf8size_eq]
  split_ifs <;> simp [utfSiz, utfmin, utfmax] <;> omega

theorem utf8encode_eq {u : Nat} (hu : u.isValidChar) :
    utf8encode u = lead (utf8size u) (u / 64 ^ (utf8size u - 1)) ::
      digits (utf8size u - 1) u := by
  obtain ⟨hlen, hle, hmin, hmax⟩ := utf8size_range hu
  have hvalidate := utf8validate_fst u 0 hu (Nat.zero_le u)
    (by rcases hu with h | h <;> simp [utfmax] <;> omega)
  have hroom := (utf8size_bounds hlen hle hmin hmax).1
  have hmem : utf8size u ∈ [1, 2, 3, 4] := by
    simp only [utfSiz] at hle
    simp
    omega
  simp only [utf8encode, hvalidate, encodeTail_eq, List.append_nil,
    if_neg (not_lt.2 hle), utf8encodebyte_lead _ hmem _ hroom]

/-- st writes a character as the standard has it. -/
theorem utf8encode_char (c : Char) :
    utf8encode c.toNat = String.utf8EncodeChar c := by
  have hvalid : c.toNat.isValidChar := c.valid
  have hmax : c.toNat ≤ 0x10FFFF := by rcases hvalid with h | h <;> omega
  rw [utf8encode_eq hvalid, utf8size_eq]
  unfold String.utf8EncodeChar
  dsimp only
  have hval : c.val.toNat = c.toNat := rfl
  rw [hval]
  by_cases h1 : c.toNat ≤ 0x7F
  · simp [h1, digits, lead, utfbyte]
  by_cases h2 : c.toNat ≤ 0x7FF
  · have hlead : c.toNat / 64 % 32 = c.toNat / 64 := by omega
    simp [h1, h2, digits, lead, continuation, utfbyte, hlead, Nat.add_comm]
  by_cases h3 : c.toNat ≤ 0xFFFF
  · have hlead : c.toNat / 4096 % 16 = c.toNat / 4096 := by omega
    simp [h1, h2, h3, digits, lead, continuation, utfbyte, hlead, Nat.add_comm]
  · have hlead : c.toNat / 262144 % 8 = c.toNat / 262144 := by omega
    simp [h1, h2, h3, hmax, digits, lead, continuation, utfbyte, hlead,
      Nat.add_comm]

theorem utf8encode_invalid {u : Nat} (hu : ¬ u.isValidChar) :
    utf8encode u = utf8encode utfInvalid := by
  have hvalidate : utf8validate u 0 = utf8validate utfInvalid 0 := by
    rcases utf8validate_cases u 0 with h | ⟨_, _, hmax, hsurrogate⟩
    · have hsize : utf8validate u 0 =
          ((utf8validate u 0).1, utf8size (utf8validate u 0).1) := rfl
      rw [hsize, h]
      rfl
    · refine absurd ?_ hu
      simp only [utfmax, List.getD_cons_zero] at hmax
      by_cases hlow : u < 0xD800
      · exact Or.inl hlow
      · exact Or.inr (by omega)
  simp only [utf8encode, hvalidate]

/-- An encoding fits the buffer of a character. -/
theorem utf8encode_length_le (u : Nat) :
    (utf8encode u).length ≤ utfSiz := by
  by_cases hu : u.isValidChar
  · obtain ⟨hlen, hle, _, _⟩ := utf8size_range hu
    rw [utf8encode_eq hu, List.length_cons, digits_length,
      Nat.sub_add_cancel hlen]
    exact hle
  · rw [utf8encode_invalid hu]
    decide

/-- The first byte of a sequence announces the digits that follow. -/
theorem utf8decode_lead {len payload : Nat} (hlen : 1 ≤ len)
    (hle : len ≤ utfSiz) (hpayload : payload < leadRoom len)
    (bytes : List UInt8) :
    utf8decode (lead len payload :: bytes) = decodeFrom len 1 payload bytes := by
  have hmem : len ∈ [1, 2, 3, 4] := by
    simp only [utfSiz] at hle
    simp
    omega
  simp [utf8decode, utf8decodebyte_lead len hmem payload hpayload, hlen, hle]

theorem utf8decode_encode {u : Nat} (hu : u.isValidChar) (rest : List UInt8) :
    utf8decode (utf8encode u ++ rest) = (u, (utf8encode u).length) := by
  obtain ⟨hlen, hle, hmin, hmax⟩ := utf8size_range hu
  have hroom := (utf8size_bounds hlen hle hmin hmax).1
  have hcount : 1 + (utf8size u - 1) = utf8size u := by omega
  have hvalue : u / 64 ^ (utf8size u - 1) * 64 ^ (utf8size u - 1) +
      u % 64 ^ (utf8size u - 1) = u := Nat.div_add_mod' u _
  rw [utf8encode_eq hu, List.cons_append, utf8decode_lead hlen hle hroom,
    decodeFrom_digits hcount, hvalue, utf8validate_fst u _ hu hmin hmax,
    List.length_cons, digits_length, Nat.add_comm, hcount]

theorem utf8decode_ascii {c : UInt8} (hc : c.toNat < 0x80)
    (rest : List UInt8) : utf8decode (c :: rest) = (c.toNat, 1) := by
  have hvalid : c.toNat.isValidChar := Or.inl (by omega)
  have hsize : utf8size c.toNat = 1 := by
    rw [utf8size_eq, if_pos (by omega)]
  have hencode : utf8encode c.toNat = [c] := by
    rw [utf8encode_eq hvalid, hsize]
    simp [lead, digits, utfbyte]
  have hdecode := utf8decode_encode hvalid rest
  rw [hencode] at hdecode
  exact hdecode

/-- Whatever is read, but for the replacement, stands in front of the bytes as
the encoder writes it. -/
theorem utf8decode_sound {bytes : List UInt8} {u n : Nat}
    (h : utf8decode bytes = (u, n)) (hu : u ≠ utfInvalid) :
    u.isValidChar ∧ n = (utf8encode u).length ∧
      ∃ rest, bytes = utf8encode u ++ rest := by
  cases bytes with
  | nil => exact absurd (congrArg Prod.fst h).symm hu
  | cons c others =>
      cases hc : utf8decodebyte c with
      | mk payload len =>
        by_cases hrange : 1 ≤ len ∧ len ≤ utfSiz
        · obtain ⟨hlen, hle⟩ := hrange
          obtain ⟨hpayload, rfl⟩ := (eq_of_utf8decodebyte hc).2 hlen hle
          have hcount : 1 + (len - 1) = len := by omega
          rw [utf8decode_lead hlen hle hpayload] at h
          rcases decodeFrom_cases hcount payload others with hinvalid |
            ⟨w, hw, rest, hothers, hresult⟩
          · rw [h] at hinvalid
            exact absurd hinvalid hu
          · have hpair := h.symm.trans hresult
            obtain ⟨huvalue, rfl⟩ := Prod.mk.inj hpair
            rcases utf8validate_cases (payload * 64 ^ (n - 1) + w) n with
              hinvalid | ⟨hsame, hmin, hmax, hsurrogate⟩
            · exact absurd (huvalue.trans hinvalid) hu
            · rw [hsame] at huvalue
              subst huvalue
              obtain ⟨_, _, hsize⟩ := utf8size_bounds hlen hle hmin hmax
              have hvalid : (payload * 64 ^ (n - 1) + w).isValidChar := by
                have hbound : payload * 64 ^ (n - 1) + w ≤ 0x10FFFF := by
                  have hn : n = 1 ∨ n = 2 ∨ n = 3 ∨ n = 4 := by
                    simp only [utfSiz] at hle
                    omega
                  rcases hn with rfl | rfl | rfl | rfl <;>
                    simp [utfmax] at hmax ⊢ <;> omega
                by_cases hlow : payload * 64 ^ (n - 1) + w < 0xD800
                · exact Or.inl hlow
                · exact Or.inr (by omega)
              have hdiv : (payload * 64 ^ (n - 1) + w) / 64 ^ (n - 1) =
                  payload := by
                rw [Nat.add_comm, Nat.add_mul_div_right _ _ (by positivity),
                  Nat.div_eq_of_lt hw, Nat.zero_add]
              rw [utf8encode_eq hvalid, hsize, hdiv, digits_add_mul]
              refine ⟨hvalid, by simp; omega, rest, ?_⟩
              rw [hothers, List.cons_append]
        · have hone : utf8decode (c :: others) = (utfInvalid, 1) := by
            simp only [utf8decode, hc]
            exact if_neg (by simpa using hrange)
          rw [hone] at h
          exact absurd (congrArg Prod.fst h).symm hu

/-- st writes the standard encoding of every character, and the replacement
for every other number; it reads a character exactly where its encoding
stands. -/
theorem utf8_codec :
    (∀ c : Char, utf8encode c.toNat = String.utf8EncodeChar c) ∧
      (∀ u : Nat, ¬ u.isValidChar →
        utf8encode u = String.utf8EncodeChar (Char.ofNat utfInvalid)) ∧
      (∀ (c : Char) (rest : List UInt8),
        utf8decode (String.utf8EncodeChar c ++ rest) =
          (c.toNat, (String.utf8EncodeChar c).length)) ∧
      ∀ bytes u n, utf8decode bytes = (u, n) → u ≠ utfInvalid →
        ∃ (c : Char) (rest : List UInt8), u = c.toNat ∧
          bytes = String.utf8EncodeChar c ++ rest ∧
          n = (String.utf8EncodeChar c).length := by
  refine ⟨utf8encode_char, fun u hu => ?_, fun c rest => ?_, ?_⟩
  · rw [utf8encode_invalid hu, ← utf8encode_char]
    rfl
  · rw [← utf8encode_char]
    exact utf8decode_encode c.valid rest
  · intro bytes u n h hu
    obtain ⟨hvalid, hn, rest, hbytes⟩ := utf8decode_sound h hu
    have hchar : (Char.ofNat u).toNat = u := by
      rw [Char.ofNat, dif_pos hvalid]
      rfl
    refine ⟨Char.ofNat u, rest, hchar.symm, ?_, ?_⟩
    · rw [← utf8encode_char, hchar, hbytes]
    · rw [← utf8encode_char, hchar, hn]

end Codec

end St

end Bodhi
