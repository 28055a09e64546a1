import Mathlib.Data.Nat.Digits.Lemmas
import Mathlib.Tactic.Ring

/-! Natural numbers as base-128 digits, least significant first, one digit a
byte; the high bit of a byte announces another digit. `encode` writes the fewest
digits. `decode` reads at most a given number of digits and gives up when the
last of these still announces another one; `span` is the number of bytes it
looks at, so a decoder that gives up has a span as well. -/

namespace Base128

/-! ### Length -/

/-- The number of digits of the shortest encoding. -/
def size (n : ℕ) : ℕ := max 1 (Nat.digits 128 n).length

theorem size_pos (n : ℕ) : 0 < size n := by
  unfold size
  omega

theorem size_le_iff {c : ℕ} (hc : 0 < c) (n : ℕ) : size n ≤ c ↔ n < 128 ^ c := by
  rw [size, Nat.max_le, and_iff_right (by omega), Nat.digits_length_le_iff (by omega)]

theorem size_of_lt {n : ℕ} (h : n < 128) : size n = 1 := by
  have hle := (size_le_iff (c := 1) (by omega) n).mpr (by omega)
  have := size_pos n
  omega

theorem size_of_le {n : ℕ} (h : 128 ≤ n) : size n = size (n / 128) + 1 := by
  have hdiv : (Nat.digits 128 (n / 128)).length ≠ 0 := by
    rw [ne_eq, List.length_eq_zero_iff, Nat.digits_eq_nil_iff_eq_zero]
    omega
  rw [size, size, Nat.digits_def' (by omega) (by omega), List.length_cons]
  omega

theorem size_mod_le (n m : ℕ) : size (n % m) ≤ size n := by
  have hlt := (size_le_iff (size_pos n) n).mp le_rfl
  exact (size_le_iff (size_pos n) _).mpr (lt_of_le_of_lt (Nat.mod_le n m) hlt)

/-! ### Encoding -/

/-- At most `c` digits of `n`; all of them when `n < 128 ^ c`. -/
def encode : ℕ → ℕ → List UInt8
  | 0, _ => []
  | c + 1, n => if n < 128 then [UInt8.ofNat n] else UInt8.ofNat (n % 128 + 128) :: encode c (n / 128)

theorem encode_succ_of_lt {c n : ℕ} (h : n < 128) : encode (c + 1) n = [UInt8.ofNat n] := if_pos h

theorem encode_succ_of_le {c n : ℕ} (h : 128 ≤ n) :
    encode (c + 1) n = UInt8.ofNat (n % 128 + 128) :: encode c (n / 128) := if_neg (by omega)

theorem div_lt_pow {c n : ℕ} (h : n < 128 ^ (c + 1)) : n / 128 < 128 ^ c := by
  rw [Nat.div_lt_iff_lt_mul (by omega), ← Nat.pow_succ]
  exact h

theorem length_encode {c n : ℕ} (hc : 0 < c) (hn : n < 128 ^ c) : (encode c n).length = size n := by
  induction c generalizing n with
  | zero => omega
  | succ c ih =>
    by_cases h : n < 128
    · rw [encode_succ_of_lt h, size_of_lt h, List.length_singleton]
    · have hc' : 0 < c := by
        by_contra hz
        obtain rfl : c = 0 := by omega
        omega
      rw [encode_succ_of_le (by omega), size_of_le (by omega), List.length_cons,
        ih hc' (div_lt_pow hn)]

/-! ### Decoding -/

/-- The number in front of a sequence, unless its first `c` bytes do not end it. -/
def decode : ℕ → List UInt8 → Option ℕ
  | 0, _ => none
  | _ + 1, [] => none
  | c + 1, b :: bs =>
    if b.toNat < 128 then some b.toNat else (decode c bs).map (fun n => b.toNat % 128 + 128 * n)

/-- The number of bytes that `decode` looks at. -/
def span : ℕ → List UInt8 → ℕ
  | 0, _ => 0
  | _ + 1, [] => 0
  | c + 1, b :: bs => if b.toNat < 128 then 1 else span c bs + 1

theorem span_le (c : ℕ) (bs : List UInt8) : span c bs ≤ c := by
  fun_induction span c bs <;> omega

theorem span_le_length (c : ℕ) (bs : List UInt8) : span c bs ≤ bs.length := by
  fun_induction span c bs with
  | case4 c b bs h ih => simpa using ih
  | _ => simp

theorem span_pos {c : ℕ} (hc : 0 < c) {bs : List UInt8} (hbs : bs ≠ []) : 0 < span c bs := by
  cases c with
  | zero => omega
  | succ c =>
    cases bs with
    | nil => exact absurd rfl hbs
    | cons b bs =>
      unfold span
      split <;> omega

theorem decode_eq_none_iff {c : ℕ} {bs : List UInt8} :
    decode c bs = none ↔ ∀ b ∈ bs.take c, 128 ≤ b.toNat := by
  induction c generalizing bs with
  | zero => simp [decode]
  | succ c ih =>
    cases bs with
    | nil => simp [decode]
    | cons b bs =>
      rw [decode, List.take_succ_cons, List.forall_mem_cons, ← ih]
      split
      next h => simp; omega
      next h => simp; omega

/-- Decoding looks at no byte behind the number. -/
theorem decode_append {c : ℕ} {bs : List UInt8} {n : ℕ} (h : decode c bs = some n)
    (rest : List UInt8) :
    decode c (bs ++ rest) = some n ∧ span c (bs ++ rest) = span c bs := by
  induction c generalizing bs n with
  | zero => simp [decode] at h
  | succ c ih =>
    cases bs with
    | nil => simp [decode] at h
    | cons b bs =>
      rw [decode] at h
      rw [List.cons_append, decode, span, span]
      split at h
      next hb =>
        rw [if_pos hb, if_pos hb, if_pos hb]
        exact ⟨h, rfl⟩
      next hb =>
        obtain ⟨m, hm, rfl⟩ := Option.map_eq_some_iff.mp h
        obtain ⟨hdec, hspan⟩ := ih hm
        rw [if_neg hb, if_neg hb, if_neg hb, hdec, hspan]
        exact ⟨rfl, rfl⟩

theorem decode_lt {c : ℕ} {bs : List UInt8} {n : ℕ} (h : decode c bs = some n) :
    n < 128 ^ span c bs := by
  induction c generalizing bs n with
  | zero => simp [decode] at h
  | succ c ih =>
    cases bs with
    | nil => simp [decode] at h
    | cons b bs =>
      rw [decode] at h
      rw [span]
      split at h
      next hb =>
        obtain rfl := Option.some.inj h
        rw [if_pos hb]
        omega
      next hb =>
        obtain ⟨m, hm, rfl⟩ := Option.map_eq_some_iff.mp h
        rw [if_neg hb, Nat.pow_succ]
        have := ih hm
        omega

theorem size_le_span {c : ℕ} {bs : List UInt8} {n : ℕ} (h : decode c bs = some n) :
    size n ≤ span c bs := by
  have hlt := decode_lt h
  have hpos : 0 < span c bs := by
    by_contra hz
    cases c with
    | zero => simp [decode] at h
    | succ c =>
      cases bs with
      | nil => simp [decode] at h
      | cons b bs => exact hz (span_pos (Nat.succ_pos c) (List.cons_ne_nil b bs))
  exact (size_le_iff hpos n).mpr hlt

theorem decode_encode_append {c n : ℕ} (hc : 0 < c) (hn : n < 128 ^ c) (rest : List UInt8) :
    decode c (encode c n ++ rest) = some n ∧ span c (encode c n ++ rest) = size n := by
  induction c generalizing n with
  | zero => omega
  | succ c ih =>
    by_cases h : n < 128
    · have hb : (UInt8.ofNat n).toNat = n := UInt8.toNat_ofNat_of_lt' (by simp only [UInt8.size]; omega)
      rw [encode_succ_of_lt h, size_of_lt h, List.singleton_append, decode, span, hb, if_pos h,
        if_pos h]
      exact ⟨rfl, rfl⟩
    · have hb : (UInt8.ofNat (n % 128 + 128)).toNat = n % 128 + 128 :=
        UInt8.toNat_ofNat_of_lt' (by simp only [UInt8.size]; omega)
      have hc' : 0 < c := by
        by_contra hz
        obtain rfl : c = 0 := by omega
        omega
      obtain ⟨hdec, hspan⟩ := ih hc' (div_lt_pow hn)
      rw [encode_succ_of_le (by omega), size_of_le (by omega), List.cons_append, decode, span, hb,
        if_neg (by omega), if_neg (by omega), hdec, hspan]
      refine ⟨?_, rfl⟩
      rw [Option.map_some]
      congr 1
      omega

/-- Bytes followed by zeros hold no number wider than the bytes. -/
theorem decode_append_zeros_lt {c k : ℕ} {bs : List UInt8} {n : ℕ}
    (h : decode c (bs ++ List.replicate k 0) = some n) : n < 128 ^ bs.length := by
  induction c generalizing bs n with
  | zero => simp [decode] at h
  | succ c ih =>
    cases bs with
    | nil =>
      cases k with
      | zero => simp [decode] at h
      | succ k =>
        simp only [List.nil_append, List.replicate_succ, decode] at h
        obtain rfl : 0 = n := by simpa using h
        simp
    | cons b bs =>
      rw [List.cons_append, decode] at h
      rw [List.length_cons, Nat.pow_succ]
      split at h
      next hb =>
        obtain rfl := Option.some.inj h
        have := Nat.pow_pos (n := bs.length) (show 0 < 128 by omega)
        omega
      next hb =>
        obtain ⟨m, hm, rfl⟩ := Option.map_eq_some_iff.mp h
        have := ih hm
        omega

/-! ### Prefixes -/

/-- The number whose digits are the given ones, high bits ignored. -/
def value : List UInt8 → ℕ
  | [] => 0
  | b :: bs => b.toNat % 128 + 128 * value bs

theorem value_lt (bs : List UInt8) : value bs < 128 ^ bs.length := by
  induction bs with
  | nil => simp [value]
  | cons b bs ih =>
    rw [value, List.length_cons, Nat.pow_succ]
    omega

/-- Digits that all announce another one, followed by a last digit. -/
theorem decode_append_cons {c : ℕ} {bs : List UInt8} (hmore : ∀ b ∈ bs, 128 ≤ b.toNat)
    (hc : bs.length < c) {d : UInt8} (hd : d.toNat < 128) (rest : List UInt8) :
    decode c (bs ++ d :: rest) = some (value bs + 128 ^ bs.length * d.toNat) ∧
      span c (bs ++ d :: rest) = bs.length + 1 := by
  induction bs generalizing c with
  | nil =>
    obtain ⟨c, rfl⟩ : ∃ k, c = k + 1 := ⟨c - 1, by simp at hc; omega⟩
    simp [decode, span, value, hd]
  | cons b bs ih =>
    obtain ⟨c, rfl⟩ : ∃ k, c = k + 1 := ⟨c - 1, by simp at hc; omega⟩
    have hb := hmore b List.mem_cons_self
    obtain ⟨hdec, hspan⟩ := ih (c := c) (fun x hx => hmore x (List.mem_cons_of_mem b hx))
      (by simpa using hc)
    rw [List.cons_append, decode, span, if_neg (by omega), if_neg (by omega), hdec, hspan,
      Option.map_some, value, List.length_cons, Nat.pow_succ]
    refine ⟨congrArg some ?_, rfl⟩
    rw [Nat.mul_add, Nat.mul_right_comm, Nat.mul_comm _ 128, ← Nat.mul_assoc, Nat.add_assoc,
      Nat.mul_assoc]

/-- A number that was decoded has some digits that announce another one and a last one. -/
theorem exists_of_decode {c : ℕ} {bs : List UInt8} {n : ℕ} (h : decode c bs = some n) :
    ∃ (more : List UInt8) (d : UInt8), bs.take (span c bs) = more ++ [d] ∧
      (∀ b ∈ more, 128 ≤ b.toNat) ∧ d.toNat < 128 ∧ more.length < c ∧
      n = value more + 128 ^ more.length * d.toNat := by
  induction c generalizing bs n with
  | zero => cases h
  | succ c ih =>
    cases bs with
    | nil => cases h
    | cons b bs =>
      rw [decode] at h
      rw [span]
      by_cases hb : b.toNat < 128
      · rw [if_pos hb] at h ⊢
        obtain rfl := Option.some.inj h
        exact ⟨[], b, rfl, by simp, hb, Nat.succ_pos c, by simp [value]⟩
      · rw [if_neg hb] at h ⊢
        obtain ⟨m, hm, rfl⟩ := Option.map_eq_some_iff.mp h
        obtain ⟨more, d, htake, hmore, hd, hc, rfl⟩ := ih hm
        refine ⟨b :: more, d, by rw [List.take_succ_cons, htake, List.cons_append],
          List.forall_mem_cons.mpr ⟨Nat.not_lt.mp hb, hmore⟩, hd, Nat.succ_lt_succ hc, ?_⟩
        rw [value, List.length_cons, Nat.pow_succ]
        ring

/-! ### Shortest encodings -/

/-- The last digit is not zero, unless it is the only one. -/
def Shortest (w : List UInt8) : Prop := w.length = 1 ∨ w.getLast? ≠ some 0

/-- Digits without a zero at the end are those that `encode` writes. -/
theorem encode_value {c : ℕ} {more : List UInt8} {d : UInt8} (hmore : ∀ b ∈ more, 128 ≤ b.toNat)
    (hd : d.toNat < 128) (hc : more.length < c) (hlast : more = [] ∨ d.toNat ≠ 0) :
    encode c (value more + 128 ^ more.length * d.toNat) = more ++ [d] := by
  induction more generalizing c with
  | nil =>
    obtain ⟨c, rfl⟩ : ∃ k, c = k + 1 := ⟨c - 1, by omega⟩
    rw [value, List.length_nil, Nat.pow_zero, Nat.one_mul, Nat.zero_add, encode_succ_of_lt hd,
      UInt8.ofNat_toNat, List.nil_append]
  | cons b more ih =>
    obtain ⟨c, rfl⟩ : ∃ k, c = k + 1 := ⟨c - 1, by omega⟩
    rw [List.forall_mem_cons] at hmore
    have hne : d.toNat ≠ 0 := hlast.resolve_left (List.cons_ne_nil b more)
    have hsplit : value (b :: more) + 128 ^ (b :: more).length * d.toNat =
        b.toNat % 128 + 128 * (value more + 128 ^ more.length * d.toNat) := by
      rw [value, List.length_cons, Nat.pow_succ]
      ring
    have hpos : 0 < 128 ^ more.length * d.toNat :=
      Nat.mul_pos (Nat.pow_pos (by decide)) (Nat.pos_of_ne_zero hne)
    have hbyte : UInt8.ofNat (b.toNat % 128 + 128) = b := by
      have hb := b.toNat_lt
      rw [show b.toNat % 128 + 128 = b.toNat by omega, UInt8.ofNat_toNat]
    rw [hsplit, encode_succ_of_le (by omega), List.cons_append,
      show (b.toNat % 128 + 128 * (value more + 128 ^ more.length * d.toNat)) % 128 =
        b.toNat % 128 by omega,
      show (b.toNat % 128 + 128 * (value more + 128 ^ more.length * d.toNat)) / 128 =
        value more + 128 ^ more.length * d.toNat by omega,
      hbyte, ih hmore.2 (Nat.lt_of_succ_lt_succ hc) (.inr hne)]

/-- Encoding gives the decoded bytes back exactly if they are a shortest encoding. -/
theorem encode_eq_take_iff {c : ℕ} {bs : List UInt8} {n : ℕ} (h : decode c bs = some n) :
    encode c n = bs.take (span c bs) ↔ Shortest (bs.take (span c bs)) := by
  obtain ⟨more, d, htake, hmore, hd, hc, rfl⟩ := exists_of_decode h
  have hshortest : Shortest (more ++ [d]) ↔ more = [] ∨ d.toNat ≠ 0 := by
    rw [Shortest, List.getLast?_concat, ne_eq, Option.some_inj, ← UInt8.toNat_inj, UInt8.toNat_zero,
      List.length_append, List.length_singleton, Nat.add_eq_right, List.length_eq_zero_iff]
  rw [htake, hshortest]
  refine ⟨fun heq => ?_, encode_value hmore hd hc⟩
  by_contra hzero
  obtain ⟨hne, hd0⟩ := not_or.mp hzero
  have hlen := congrArg List.length heq
  rw [not_not.mp hd0, Nat.mul_zero, Nat.add_zero, List.length_append, List.length_singleton] at hlen
  have hpos := List.length_pos_of_ne_nil hne
  have hsize := (size_le_iff hpos _).mpr (value_lt more)
  have hbound := (value_lt more).trans_le (Nat.pow_le_pow_right (n := 128) (by decide) hc.le)
  rw [length_encode (by omega) hbound] at hlen
  omega

/-- A number is bounded by the last digit that it may have. -/
theorem decode_lt_iff {c j q n : ℕ} {bs : List UInt8} (hj : j + 1 = c) (hq : 0 < q)
    (h : decode c bs = some n) :
    n < 128 ^ j * q ↔ ∀ d, (bs.take (span c bs))[j]? = some d → d.toNat < q := by
  obtain ⟨more, d, htake, -, -, hc, rfl⟩ := exists_of_decode h
  have hvalue := value_lt more
  rw [htake]
  by_cases hlen : more.length = j
  · have hget : (more ++ [d])[j]? = some d := by
      rw [← hlen]
      simp
    rw [hget, hlen]
    rw [hlen] at hvalue
    simp only [Option.some.injEq, forall_eq']
    constructor
    · intro hlt
      exact Nat.lt_of_mul_lt_mul_left (a := 128 ^ j) (by omega)
    · intro hlt
      have := Nat.mul_le_mul_left (128 ^ j) (Nat.succ_le_of_lt hlt)
      rw [Nat.mul_succ] at this
      omega
  · have hnone : (more ++ [d])[j]? = none := by
      rw [List.getElem?_eq_none]
      simp only [List.length_append, List.length_singleton]
      omega
    rw [hnone]
    refine iff_of_true ?_ (by simp)
    have hd : value more + 128 ^ more.length * d.toNat < 128 ^ (more.length + 1) := by
      have hlt := decode_lt h
      have hspan := congrArg List.length htake
      rw [List.length_take_of_le (span_le_length c bs), List.length_append, List.length_singleton]
        at hspan
      rwa [hspan] at hlt
    calc _ < 128 ^ (more.length + 1) := hd
      _ ≤ 128 ^ j := Nat.pow_le_pow_right (by decide) (by omega)
      _ ≤ 128 ^ j * q := Nat.le_mul_of_pos_right _ hq

/-- A proper prefix of an encoding announces another digit with every byte. -/
theorem more_of_prefix_encode {c n k : ℕ} (hn : n < 128 ^ c) (hk : k < (encode c n).length) :
    ∀ b ∈ (encode c n).take k, 128 ≤ b.toNat := by
  induction c generalizing n k with
  | zero => simp [encode] at hk
  | succ c ih =>
    cases k with
    | zero => simp
    | succ k =>
      by_cases h : n < 128
      · rw [encode_succ_of_lt h, List.length_singleton] at hk
        omega
      · rw [encode_succ_of_le (by omega), List.length_cons] at hk
        rw [encode_succ_of_le (by omega), List.take_succ_cons]
        intro b hb
        obtain rfl | hb := List.mem_cons.mp hb
        · rw [UInt8.toNat_ofNat_of_lt' (by simp only [UInt8.size]; omega)]
          omega
        · exact ih (div_lt_pow hn) (by omega) b hb

/-! ### Last digits -/

/-- The number of bytes that announce no other digit. -/
def stops (bs : List UInt8) : ℕ := bs.countP fun b => b.toNat < 128

@[simp] theorem stops_nil : stops [] = 0 := rfl

@[simp] theorem stops_append (bs bs' : List UInt8) : stops (bs ++ bs') = stops bs + stops bs' :=
  List.countP_append

@[simp] theorem stops_flatten (words : List (List UInt8)) :
    stops words.flatten = (words.map stops).sum :=
  List.countP_flatten

@[simp] theorem stops_reverse (bs : List UInt8) : stops bs.reverse = stops bs :=
  List.countP_reverse

theorem stops_eq_zero {bs : List UInt8} (h : ∀ b ∈ bs, 128 ≤ b.toNat) : stops bs = 0 :=
  List.countP_eq_zero.mpr fun b hb => by
    have := h b hb
    simpa using this

/-- A number has one last digit. -/
theorem stops_take_span {c : ℕ} {bs : List UInt8} {n : ℕ} (h : decode c bs = some n) :
    stops (bs.take (span c bs)) = 1 := by
  obtain ⟨more, d, htake, hmore, hd, -⟩ := exists_of_decode h
  rw [htake, stops_append, stops_eq_zero hmore]
  simp [stops, hd]

theorem stops_encode {c n : ℕ} (hc : 0 < c) (hn : n < 128 ^ c) : stops (encode c n) = 1 := by
  obtain ⟨hdec, hspan⟩ := decode_encode_append hc hn []
  rw [List.append_nil] at hdec hspan
  have hstops := stops_take_span hdec
  rwa [hspan, ← length_encode hc hn, List.take_length] at hstops

end Base128
