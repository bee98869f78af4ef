import Hlos.Include.Page
import Hlos.Lib.CString

/-!
# `libs/string.c`: lengths and comparisons

Loops that only a NUL ends take fuel; the others count.  `tolower` reads the
table of `ctype.c`, of which only the bits that it uses are kept.
-/

set_option linter.style.nameCheck false

namespace Hlos.Libs.Strings

open Hlos.Lib Hlos.Include

def strlenLoop (m : Memory) : (fuel : Nat) → (sc : Word) → Option Word
  | 0, _ => none
  | fuel + 1, sc =>
      if m.load8 sc.toNat ≠ 0 then strlenLoop m fuel (sc + 1) else some sc

def strlen (fuel : Nat) (m : Memory) (s : Word) : Option Word := do
  let sc ← strlenLoop m fuel s
  return sc - s

def strnlenLoop (m : Memory) : (count : Nat) → (sc : Word) → Word
  | 0, sc => sc
  | count + 1, sc =>
      if m.load8 sc.toNat ≠ 0 then strnlenLoop m count (sc + 1) else sc

def strnlen (m : Memory) (s : Word) (count : Nat) : Word :=
  strnlenLoop m count s - s

def strcmp (m : Memory) : (fuel : Nat) → (cs ct : Word) → Option Int
  | 0, _, _ => none
  | fuel + 1, cs, ct =>
      let c1 := m.load8 cs.toNat
      let c2 := m.load8 ct.toNat
      if c1 ≠ c2 then some (if c1 < c2 then -1 else 1)
      else if c1 = 0 then some 0
      else strcmp m fuel (cs + 1) (ct + 1)

def strncmp (m : Memory) : (count : Nat) → (cs ct : Word) → Int
  | 0, _, _ => 0
  | count + 1, cs, ct =>
      let c1 := m.load8 cs.toNat
      let c2 := m.load8 ct.toNat
      if c1 ≠ c2 then (if c1 < c2 then -1 else 1)
      else if c1 = 0 then 0
      else strncmp m count (cs + 1) (ct + 1)

def memcmp (m : Memory) : (count : Nat) → (su1 su2 : Word) → Int
  | 0, _, _ => 0
  | count + 1, su1, su2 =>
      let res : Int :=
        (m.load8 su1.toNat).toNat - (m.load8 su2.toNat).toNat
      if res ≠ 0 then res else memcmp m count (su1 + 1) (su2 + 1)

/-- The inline function of `string.h`. -/
def strstarts (fuel : Nat) (m : Memory) (str prefix_ : Word) : Option Bool := do
  let len ← strlen fuel m prefix_
  return strncmp m len.toNat str prefix_ = 0

/-- `isupper`: the bit `_U` of `_ctype`. -/
def isupper (c : BitVec 8) : Bool :=
  (0x41 ≤ c.toNat && c.toNat ≤ 0x5A) ||
    (0xC0 ≤ c.toNat && c.toNat ≤ 0xDE && c.toNat != 0xD7)

def tolower (c : BitVec 8) : BitVec 8 :=
  if isupper c then c + 32 else c

def difference (c1 c2 : BitVec 8) : Int := c1.toNat - c2.toNat

/-- The loop of `strnicmp`, from a turn to the return. -/
def strnicmpLoop (m : Memory) : (len : Nat) → (s1 s2 : Word) → Int
  | 0, _, _ => 0
  | len + 1, s1, s2 =>
      let c1 := m.load8 s1.toNat
      let c2 := m.load8 s2.toNat
      if c1 = 0 ∨ c2 = 0 then difference c1 c2
      else if c1 = c2 then
        if len = 0 then difference c1 c2
        else strnicmpLoop m len (s1 + 1) (s2 + 1)
      else if tolower c1 ≠ tolower c2 then
        difference (tolower c1) (tolower c2)
      else if len = 0 then difference (tolower c1) (tolower c2)
      else strnicmpLoop m len (s1 + 1) (s2 + 1)

def strnicmp (m : Memory) (s1 s2 : Word) (len : Nat) : Int :=
  if len = 0 then 0 else strnicmpLoop m len s1 s2

def strcasecmp (m : Memory) : (fuel : Nat) → (s1 s2 : Word) → Option Int
  | 0, _, _ => none
  | fuel + 1, s1, s2 =>
      let c1 := tolower (m.load8 s1.toNat)
      let c2 := tolower (m.load8 s2.toNat)
      if c1 = c2 ∧ c1 ≠ 0 then strcasecmp m fuel (s1 + 1) (s2 + 1)
      else some (difference c1 c2)

/-- `n` is unsigned and is decremented before it is tested. -/
def strncasecmp (m : Memory) :
    (fuel : Nat) → (s1 s2 n : Word) → Option Int
  | 0, _, _, _ => none
  | fuel + 1, s1, s2, n =>
      let c1 := tolower (m.load8 s1.toNat)
      let c2 := tolower (m.load8 s2.toNat)
      if 0 < n - 1 ∧ c1 = c2 ∧ c1 ≠ 0 then
        strncasecmp m fuel (s1 + 1) (s2 + 1) (n - 1)
      else some (difference c1 c2)

section Lengths

variable {m : Memory} {s : Word} {text : List (BitVec 8)} {fuel : Nat}

theorem strlenLoop_spec (at_ : TextAt m s text) (enough : text.length < fuel) :
    strlenLoop m fuel s = some (s + BitVec.ofNat 32 text.length) := by
  induction text generalizing s fuel with
  | nil =>
      obtain ⟨fuel, rfl⟩ := Nat.exists_eq_add_one.mpr enough
      simp [strlenLoop, textAt_nil.mp at_]
  | cons c text inductionHypothesis =>
      obtain ⟨fuel, rfl⟩ := Nat.exists_eq_add_one.mpr (Nat.zero_lt_of_lt enough)
      obtain ⟨first, notNul, later⟩ := textAt_cons.mp at_
      rw [List.length_cons] at enough
      rw [strlenLoop, first, if_pos notNul,
        inductionHypothesis later (Nat.lt_of_succ_lt_succ enough),
        address_succ, List.length_cons]

theorem strlen_spec (at_ : TextAt m s text) (enough : text.length < fuel) :
    strlen fuel m s = some (BitVec.ofNat 32 text.length) := by
  rw [strlen, strlenLoop_spec at_ enough]
  simp

theorem strnlenLoop_spec (at_ : TextAt m s text) (count : Nat) :
    strnlenLoop m count s =
      s + BitVec.ofNat 32 (min count text.length) := by
  induction text generalizing s count with
  | nil => cases count <;> simp [strnlenLoop, textAt_nil.mp at_]
  | cons c text inductionHypothesis =>
      obtain ⟨first, notNul, later⟩ := textAt_cons.mp at_
      cases count with
      | zero => simp [strnlenLoop]
      | succ count =>
          rw [strnlenLoop, first, if_pos notNul, inductionHypothesis later,
            address_succ, List.length_cons, Nat.add_min_add_right]

theorem strnlen_spec (at_ : TextAt m s text) (count : Nat) :
    strnlen m s count = BitVec.ofNat 32 (min count text.length) := by
  rw [strnlen, strnlenLoop_spec at_]
  simp

end Lengths

section Order

variable {m : Memory} {cs ct : Word} {a b : List (BitVec 8)} {fuel : Nat}

theorem headD_take (text : List (BitVec 8)) (count : Nat) :
    (text.take (count + 1)).headD 0 = text.headD 0 := by
  cases text <;> rfl

theorem tail_take (text : List (BitVec 8)) (count : Nat) :
    (text.take (count + 1)).tail = text.tail.take count := by
  cases text <;> simp

theorem tail_shorter {text : List (BitVec 8)} (notEnd : text.headD 0 ≠ 0)
    (enough : text.length < fuel + 1) : text.tail.length < fuel := by
  cases text with
  | nil => exact absurd rfl notEnd
  | cons c text => exact Nat.lt_of_succ_lt_succ enough

theorem strcmp_spec (firstAt : TextAt m cs a) (secondAt : TextAt m ct b)
    (enough : a.length < fuel) : strcmp m fuel cs ct = some (order a b) := by
  induction fuel generalizing cs ct a b with
  | zero => cases enough
  | succ fuel inductionHypothesis =>
      rw [strcmp, firstAt.head, secondAt.head,
        order_step firstAt.nonzero secondAt.nonzero]
      split_ifs with different less isEnd
      · rfl
      · rfl
      · rfl
      · have same := not_not.mp different
        have shorter := tail_shorter isEnd enough
        exact inductionHypothesis (firstAt.tail isEnd)
          (secondAt.tail (same ▸ isEnd)) shorter

theorem strncmp_spec (firstAt : TextAt m cs a) (secondAt : TextAt m ct b)
    (count : Nat) :
    strncmp m count cs ct = order (a.take count) (b.take count) := by
  induction count generalizing cs ct a b with
  | zero => simp [strncmp, order_self]
  | succ count inductionHypothesis =>
      rw [strncmp, firstAt.head, secondAt.head,
        order_step (fun member => firstAt.nonzero (List.mem_of_mem_take member))
          (fun member => secondAt.nonzero (List.mem_of_mem_take member)),
        headD_take, headD_take, tail_take, tail_take]
      split_ifs with different less isEnd
      · rfl
      · rfl
      · rfl
      · have same := not_not.mp different
        exact inductionHypothesis (firstAt.tail isEnd)
          (secondAt.tail (same ▸ isEnd))

theorem sign_difference {c d : BitVec 8} (different : c ≠ d) :
    (difference c d).sign = if c < d then -1 else 1 := by
  have distinct : c.toNat ≠ d.toNat :=
    fun same => different (BitVec.eq_of_toNat_eq same)
  rw [difference]
  split_ifs with less
  · rw [Int.sign_eq_neg_one_iff_neg]
    have below := BitVec.lt_def.mp less
    omega
  · rw [Int.sign_eq_one_iff_pos]
    have above : ¬ c.toNat < d.toNat :=
      fun below => less (BitVec.lt_def.mpr below)
    omega

theorem sign_difference_same {c d : BitVec 8} (same : c = d) :
    (difference c d).sign = 0 := by
  simp [difference, same]

theorem memcmp_spec (firstAt : BytesAt m cs a) (secondAt : BytesAt m ct b)
    (sameLength : a.length = b.length) :
    (memcmp m a.length cs ct).sign = order a b := by
  induction a generalizing cs ct b with
  | nil =>
      cases b with
      | nil => simp [memcmp, order_self]
      | cons d b => cases sameLength
  | cons c a inductionHypothesis =>
      cases b with
      | nil => cases sameLength
      | cons d b =>
          obtain ⟨first, later⟩ := firstAt
          obtain ⟨second, secondLater⟩ := secondAt
          rw [List.length_cons, memcmp, first, second]
          by_cases same : c = d
          · subst same
            simp only [Int.sub_self, ne_eq, not_true_eq_false, if_false]
            rw [order_cons_same]
            exact inductionHypothesis later secondLater
              (Nat.succ.inj sameLength)
          · have notZero : (c.toNat : Int) - d.toNat ≠ 0 := by
              intro zero
              exact same (BitVec.eq_of_toNat_eq (by omega))
            rw [if_pos notZero, order_cons_different same]
            exact sign_difference same

theorem strstarts_spec (firstAt : TextAt m cs a) (secondAt : TextAt m ct b)
    (enough : b.length < fuel) :
    strstarts fuel m cs ct = some (decide (b <+: a)) := by
  have small := secondAt.length_lt
  rw [strstarts, strlen_spec secondAt enough]
  simp only [Option.bind_eq_bind, Option.bind_some, BitVec.toNat_ofNat,
    Nat.mod_eq_of_lt small, strncmp_spec firstAt secondAt, order_eq_zero_iff,
    List.take_length]
  congr 1
  rw [decide_eq_decide, List.prefix_iff_eq_take]
  exact eq_comm

/-- `strcmp`, `strncmp`, `memcmp` and `strstarts` agree on one order: that of
the unsigned bytes at the first difference, where a shorter string is smaller.
Equal means equal up to the count, and a prefix is a prefix. -/
theorem string_order (firstAt : TextAt m cs a) (secondAt : TextAt m ct b)
    (enough : a.length < fuel) (enoughPrefix : b.length < fuel) :
    strcmp m fuel cs ct = some (order a b) ∧
      (∀ count, strncmp m count cs ct =
        order (a.take count) (b.take count)) ∧
      (∀ count, count ≤ a.length → count ≤ b.length →
        (memcmp m count cs ct).sign = order (a.take count) (b.take count)) ∧
      strstarts fuel m cs ct = some (decide (b <+: a)) := by
  refine ⟨strcmp_spec firstAt secondAt enough, strncmp_spec firstAt secondAt,
    ?_, strstarts_spec firstAt secondAt enoughPrefix⟩
  intro count insideFirst insideSecond
  have firstLength := List.length_take_of_le insideFirst
  have secondLength := List.length_take_of_le insideSecond
  have compared := memcmp_spec (firstAt.front.initial (List.take_prefix count a))
    (secondAt.front.initial (List.take_prefix count b))
    (firstLength.trans secondLength.symm)
  rwa [firstLength] at compared

end Order

/-- The strings `aB` and `abc`, one behind the other. -/
def exampleStrings : Memory where
  bytes position :=
    [0x61, 0x42, 0, 0x61, 0x62, 0x63, 0].getD (position - 0x100) 0
  log := []

theorem exampleStrings_first : TextAt exampleStrings 0x100 [0x61, 0x42] :=
  ⟨⟨by decide, by decide, by decide, trivial⟩, by simp⟩

theorem exampleStrings_second :
    TextAt exampleStrings 0x103 [0x61, 0x62, 0x63] :=
  ⟨⟨by decide, by decide, by decide, by decide, trivial⟩, by simp⟩

theorem string_order_example :
    strcmp exampleStrings 4 0x100 0x103 = some (-1) ∧
      strncmp exampleStrings 1 0x100 0x103 = 0 ∧
      strstarts 4 exampleStrings 0x100 0x103 = some false := by
  obtain ⟨compared, counted, -, starts⟩ :=
    string_order exampleStrings_first exampleStrings_second
      (show 2 < 4 by simp) (show 3 < 4 by simp)
  exact ⟨compared.trans (by decide), (counted 1).trans (by decide),
    starts.trans (by decide)⟩

/-! ## Comparisons without case -/

/-- A string in lower case. -/
def fold (text : List (BitVec 8)) : List (BitVec 8) := text.map tolower

theorem tolower_eq_zero_iff : ∀ c, tolower c = 0 ↔ c = 0 := by
  decide

theorem fold_nonzero {text : List (BitVec 8)} (nonzero : 0 ∉ text) :
    0 ∉ fold text := by
  intro member
  obtain ⟨c, isChar, isZero⟩ := List.mem_map.mp member
  exact nonzero ((tolower_eq_zero_iff c).mp isZero ▸ isChar)

theorem fold_head (text : List (BitVec 8)) :
    (fold text).headD 0 = tolower (text.headD 0) := by
  cases text <;> rfl

theorem fold_tail (text : List (BitVec 8)) :
    (fold text).tail = fold text.tail := by
  cases text <;> rfl

/-- How many characters `strncasecmp` compares at most. -/
def turns (n : Word) : Nat := if n = 0 then 2 ^ 32 else n.toNat

theorem turns_step {n : Word} (notLast : 0 < n - 1) :
    turns n = turns (n - 1) + 1 := by
  have positive := BitVec.lt_def.mp notLast
  have notZero : n - 1 ≠ 0 := by
    intro isZero
    rw [isZero] at positive
    exact absurd positive (Nat.lt_irrefl 0)
  rw [turns, turns, if_neg notZero]
  split_ifs with isZero
  · subst isZero
    rfl
  · bv_omega

theorem turns_last {n : Word} (isLast : ¬ 0 < n - 1) : turns n = 1 := by
  have isOne : n = 1 := by
    rw [BitVec.lt_def] at isLast
    bv_omega
  subst isOne
  rfl

section Caseless

variable {m : Memory} {s1 s2 : Word} {a b : List (BitVec 8)} {fuel : Nat}

/-- The order of two folded strings is that of their first characters, unless
these are equal and not the end. -/
theorem order_fold (firstNonzero : 0 ∉ a) (secondNonzero : 0 ∉ b) :
    order (fold a) (fold b) =
      if tolower (a.headD 0) = tolower (b.headD 0) ∧ tolower (a.headD 0) ≠ 0
      then order (fold a.tail) (fold b.tail)
      else (difference (tolower (a.headD 0)) (tolower (b.headD 0))).sign := by
  rw [order_step (fold_nonzero firstNonzero) (fold_nonzero secondNonzero),
    fold_head, fold_head, fold_tail, fold_tail]
  by_cases same : tolower (a.headD 0) = tolower (b.headD 0)
  · rw [if_neg (not_not_intro same), sign_difference_same same]
    by_cases isEnd : tolower (a.headD 0) = 0
    · rw [if_pos isEnd, if_neg (fun goesOn => goesOn.2 isEnd)]
    · rw [if_neg isEnd, if_pos ⟨same, isEnd⟩]
  · have stops : ¬ (tolower (a.headD 0) = tolower (b.headD 0) ∧
        tolower (a.headD 0) ≠ 0) := fun goesOn => same goesOn.1
    rw [if_pos same, if_neg stops, sign_difference same]

theorem fold_take (text : List (BitVec 8)) (count : Nat) :
    (fold text).take count = fold (text.take count) :=
  List.map_take.symm

theorem order_fold_take (firstNonzero : 0 ∉ a) (secondNonzero : 0 ∉ b)
    (count : Nat) :
    order ((fold a).take (count + 1)) ((fold b).take (count + 1)) =
      if tolower (a.headD 0) = tolower (b.headD 0) ∧ tolower (a.headD 0) ≠ 0
      then order ((fold a.tail).take count) ((fold b.tail).take count)
      else (difference (tolower (a.headD 0)) (tolower (b.headD 0))).sign := by
  rw [fold_take, fold_take, fold_take, fold_take,
    order_fold (fun member => firstNonzero (List.mem_of_mem_take member))
      (fun member => secondNonzero (List.mem_of_mem_take member)),
    headD_take, headD_take, tail_take, tail_take]

/-- The tails of two strings with equal folded heads are strings. -/
theorem tails_of_same (firstAt : TextAt m s1 a) (secondAt : TextAt m s2 b)
    (same : tolower (a.headD 0) = tolower (b.headD 0))
    (notEnd : tolower (a.headD 0) ≠ 0) :
    a.headD 0 ≠ 0 ∧ TextAt m (s1 + 1) a.tail ∧ TextAt m (s2 + 1) b.tail := by
  have notEndFirst : a.headD 0 ≠ 0 :=
    fun zero => notEnd ((tolower_eq_zero_iff _).mpr zero)
  have notEndSecond : b.headD 0 ≠ 0 :=
    fun zero => notEnd (same.trans ((tolower_eq_zero_iff _).mpr zero))
  exact ⟨notEndFirst, firstAt.tail notEndFirst, secondAt.tail notEndSecond⟩

theorem strcasecmp_spec (firstAt : TextAt m s1 a) (secondAt : TextAt m s2 b)
    (enough : a.length < fuel) :
    ∃ d, strcasecmp m fuel s1 s2 = some d ∧
      d.sign = order (fold a) (fold b) := by
  induction fuel generalizing s1 s2 a b with
  | zero => cases enough
  | succ fuel inductionHypothesis =>
      rw [strcasecmp, firstAt.head, secondAt.head,
        order_fold firstAt.nonzero secondAt.nonzero]
      split_ifs with goesOn
      · obtain ⟨notEnd, firstTail, secondTail⟩ :=
          tails_of_same firstAt secondAt goesOn.1 goesOn.2
        exact inductionHypothesis firstTail secondTail
          (tail_shorter notEnd enough)
      · exact ⟨_, rfl, rfl⟩

theorem strncasecmp_spec (firstAt : TextAt m s1 a) (secondAt : TextAt m s2 b)
    (n : Word) (enough : a.length < fuel) :
    ∃ d, strncasecmp m fuel s1 s2 n = some d ∧
      d.sign =
        order ((fold a).take (turns n)) ((fold b).take (turns n)) := by
  induction fuel generalizing s1 s2 a b n with
  | zero => cases enough
  | succ fuel inductionHypothesis =>
      rw [strncasecmp, firstAt.head, secondAt.head]
      by_cases notLast : 0 < n - 1
      · rw [turns_step notLast,
          order_fold_take firstAt.nonzero secondAt.nonzero]
        simp only [notLast, true_and]
        split_ifs with goesOn
        · obtain ⟨notEnd, firstTail, secondTail⟩ :=
            tails_of_same firstAt secondAt goesOn.1 goesOn.2
          exact inductionHypothesis firstTail secondTail (n - 1)
            (tail_shorter notEnd enough)
        · exact ⟨_, rfl, rfl⟩
      · rw [turns_last notLast, if_neg (fun goesOn => notLast goesOn.1),
          order_fold_take firstAt.nonzero secondAt.nonzero 0]
        refine ⟨_, rfl, ?_⟩
        split_ifs with goesOn
        · rw [sign_difference_same goesOn.1]
          simp [order_self]
        · rfl

/-- At the end of a string the case does not matter. -/
theorem difference_end {c d : BitVec 8} (isEnd : c = 0 ∨ d = 0) :
    (difference c d).sign = (difference (tolower c) (tolower d)).sign := by
  have second : ∀ d, (difference 0 d).sign =
      (difference (tolower 0) (tolower d)).sign := by
    decide
  have first : ∀ c, (difference c 0).sign =
      (difference (tolower c) (tolower 0)).sign := by
    decide
  cases isEnd with
  | inl isZero => rw [isZero, second]
  | inr isZero => rw [isZero, first]

theorem strnicmpLoop_spec (firstAt : TextAt m s1 a)
    (secondAt : TextAt m s2 b) (len : Nat) :
    (strnicmpLoop m len s1 s2).sign =
      order ((fold a).take len) ((fold b).take len) := by
  induction len generalizing s1 s2 a b with
  | zero => simp [strnicmpLoop, order_self]
  | succ len inductionHypothesis =>
      rw [strnicmpLoop, firstAt.head, secondAt.head,
        order_fold_take firstAt.nonzero secondAt.nonzero]
      by_cases isEnd : a.headD 0 = 0 ∨ b.headD 0 = 0
      · have stops : ¬ (tolower (a.headD 0) = tolower (b.headD 0) ∧
            tolower (a.headD 0) ≠ 0) := by
          rintro ⟨same, notEnd⟩
          cases isEnd with
          | inl isZero => exact notEnd ((tolower_eq_zero_iff _).mpr isZero)
          | inr isZero =>
              exact notEnd (same.trans ((tolower_eq_zero_iff _).mpr isZero))
        rw [if_pos isEnd, if_neg stops, difference_end isEnd]
      · rw [if_neg isEnd]
        have notEnd : tolower (a.headD 0) ≠ 0 :=
          fun zero => isEnd (Or.inl ((tolower_eq_zero_iff _).mp zero))
        by_cases same : tolower (a.headD 0) = tolower (b.headD 0)
        · obtain ⟨-, firstTail, secondTail⟩ :=
            tails_of_same firstAt secondAt same notEnd
          have others := inductionHypothesis firstTail secondTail
          have goesOn : tolower (a.headD 0) = tolower (b.headD 0) ∧
              tolower (a.headD 0) ≠ 0 := ⟨same, notEnd⟩
          rw [if_pos goesOn, ← others, if_neg (not_not_intro same)]
          have atEnd : len = 0 →
              (strnicmpLoop m len (s1 + 1) (s2 + 1)).sign = 0 := by
            intro isZero
            rw [others, isZero, List.take_zero, List.take_zero, order_self]
          split_ifs with sameByte isLast isLast
          · rw [sign_difference_same sameByte, atEnd isLast]
          · rfl
          · rw [sign_difference_same same, atEnd isLast]
          · rfl
        · have differs : a.headD 0 ≠ b.headD 0 :=
            fun sameByte => same (congrArg tolower sameByte)
          have stops : ¬ (tolower (a.headD 0) = tolower (b.headD 0) ∧
              tolower (a.headD 0) ≠ 0) := fun goesOn => same goesOn.1
          rw [if_neg differs, if_pos same, if_neg stops]

/-- `strcasecmp`, `strncasecmp` and `strnicmp` order strings in lower case.
With a count of zero `strnicmp` compares nothing and `strncasecmp`, which
decrements the count before it tests it, compares the whole strings. -/
theorem caseless_order (firstAt : TextAt m s1 a) (secondAt : TextAt m s2 b)
    (enough : a.length < fuel) :
    (∃ d, strcasecmp m fuel s1 s2 = some d ∧
      d.sign = order (fold a) (fold b)) ∧
    (∀ n : Word, (strnicmp m s1 s2 n.toNat).sign =
      order ((fold a).take n.toNat) ((fold b).take n.toNat)) ∧
    (∀ n : Word, ∃ d, strncasecmp m fuel s1 s2 n = some d ∧
      d.sign =
        if n = 0 then order (fold a) (fold b)
        else order ((fold a).take n.toNat) ((fold b).take n.toNat)) := by
  refine ⟨strcasecmp_spec firstAt secondAt enough, ?_, ?_⟩
  · intro n
    rw [strnicmp]
    split_ifs with isZero
    · simp [isZero, order_self]
    · exact strnicmpLoop_spec firstAt secondAt n.toNat
  · intro n
    have compared := strncasecmp_spec firstAt secondAt n enough
    rw [turns] at compared
    split_ifs at compared ⊢ with isZero
    · have whole (text : List (BitVec 8)) (small : text.length < 2 ^ 32) :
          (fold text).take (2 ^ 32) = fold text := by
        apply List.take_of_length_le
        rw [fold, List.length_map]
        exact Nat.le_of_lt small
      rwa [whole a firstAt.length_lt, whole b secondAt.length_lt] at compared
    · exact compared

end Caseless

theorem caseless_order_example :
    (strnicmp exampleStrings 0x100 0x103 0).sign = 0 ∧
      ∃ d, strncasecmp exampleStrings 4 0x100 0x103 0 = some d ∧
        d.sign = -1 := by
  obtain ⟨-, counted, ordered⟩ :=
    caseless_order exampleStrings_first exampleStrings_second
      (show 2 < 4 by simp)
  obtain ⟨d, compared, isSign⟩ := ordered 0
  exact ⟨(counted 0).trans (by decide), d, compared,
    isSign.trans (by decide)⟩

end Hlos.Libs.Strings
