import Hlos.Libs.StringSearch

/-!
# `libs/string.c`: `strsep`

Calls of `strsep` until it returns the null pointer split a string at every
character of a set.  The string is cut in place: a NUL is stored where a token
ends, and the tokens stay where they are.
-/

namespace Hlos.Libs.Strings

open Hlos.Lib Hlos.Include

/-- The pointer behind the argument, and the token. -/
structure Separated where
  memory : Memory
  s : Option Word
  token : Option Word

def strsep (fuel : Nat) (m : Memory) (s : Option Word) (ct : Word) :
    Option Separated :=
  match s with
  | none => some ⟨m, none, none⟩
  | some sbegin => do
      match ← strpbrk m fuel sbegin ct with
      | none => return ⟨m, none, some sbegin⟩
      | some stop =>
          return ⟨m.store8 stop.toNat 0, some (stop + 1), some sbegin⟩

/-- The tokens of a loop `while ((token = strsep(&s, ct)) != NULL)`. -/
def strsepLoop (fuel : Nat) (ct : Word) :
    (calls : Nat) → (m : Memory) → (s : Option Word) →
      Option (Memory × List Word)
  | 0, _, _ => none
  | calls + 1, m, s => do
      let separated ← strsep fuel m s ct
      match separated.token with
      | none => return (separated.memory, [])
      | some token =>
          let (m, tokens) ← strsepLoop fuel ct calls separated.memory separated.s
          return (m, token :: tokens)

section Tokens

variable {m : Memory} {s ct : Word} {text stops : List (BitVec 8)}
variable {fuel : Nat}

theorem meets_spec (at_ : TextAt m ct stops) (c : BitVec 8)
    (enough : stops.length < fuel) :
    meets m fuel ct c = some (decide (c ∈ stops)) := by
  induction stops generalizing ct fuel with
  | nil =>
      obtain ⟨fuel, rfl⟩ := Nat.exists_eq_add_one.mpr enough
      simp [meets, textAt_nil.mp at_]
  | cons d stops inductionHypothesis =>
      obtain ⟨fuel, rfl⟩ := Nat.exists_eq_add_one.mpr (Nat.zero_lt_of_lt enough)
      obtain ⟨first, notNul, later⟩ := textAt_cons.mp at_
      rw [meets, first, if_pos notNul,
        inductionHypothesis later (Nat.lt_of_succ_lt_succ enough)]
      by_cases same : c = d <;> simp [same]

/-- The characters at which `strsep` cuts. -/
def isStop (stops : List (BitVec 8)) (c : BitVec 8) : Bool := stops.contains c

theorem isStop_eq {stops : List (BitVec 8)} {c : BitVec 8} :
    isStop stops c = decide (c ∈ stops) :=
  List.contains_eq_mem c stops

theorem strpbrk_none (at_ : TextAt m s text) (stopsAt : TextAt m ct stops)
    (clean : ∀ c, c ∈ text → isStop stops c = false)
    (enough : text.length + stops.length < fuel) :
    strpbrk m fuel s ct = some none := by
  induction text generalizing s fuel with
  | nil =>
      obtain ⟨fuel, rfl⟩ := Nat.exists_eq_add_one.mpr (Nat.zero_lt_of_lt enough)
      simp [strpbrk, textAt_nil.mp at_]
  | cons c text inductionHypothesis =>
      obtain ⟨fuel, rfl⟩ := Nat.exists_eq_add_one.mpr (Nat.zero_lt_of_lt enough)
      obtain ⟨first, notNul, later⟩ := textAt_cons.mp at_
      rw [List.length_cons] at enough
      have goesOn := clean c List.mem_cons_self
      rw [isStop_eq] at goesOn
      have others := inductionHypothesis later
        (fun d member => clean d (List.mem_cons_of_mem c member))
        (show text.length + stops.length < fuel by omega)
      rw [strpbrk, first, if_pos notNul,
        meets_spec stopsAt c (show stops.length < fuel + 1 by omega), goesOn]
      exact others

theorem strpbrk_some {front rest : List (BitVec 8)} {stop : BitVec 8}
    (at_ : TextAt m s (front ++ stop :: rest)) (stopsAt : TextAt m ct stops)
    (clean : ∀ c, c ∈ front → isStop stops c = false)
    (stops_here : isStop stops stop = true)
    (enough : front.length + stops.length < fuel) :
    strpbrk m fuel s ct = some (some (s + BitVec.ofNat 32 front.length)) := by
  induction front generalizing s fuel with
  | nil =>
      obtain ⟨fuel, rfl⟩ := Nat.exists_eq_add_one.mpr (Nat.zero_lt_of_lt enough)
      obtain ⟨first, notNul, -⟩ := textAt_cons.mp at_
      rw [isStop_eq] at stops_here
      rw [List.length_nil] at enough
      rw [strpbrk, first, if_pos notNul, meets_spec stopsAt stop (by omega),
        stops_here]
      simp
  | cons c front inductionHypothesis =>
      obtain ⟨fuel, rfl⟩ := Nat.exists_eq_add_one.mpr (Nat.zero_lt_of_lt enough)
      obtain ⟨first, notNul, later⟩ := textAt_cons.mp at_
      rw [List.length_cons] at enough
      have goesOn := clean c List.mem_cons_self
      rw [isStop_eq] at goesOn
      have others := inductionHypothesis later
        (fun d member => clean d (List.mem_cons_of_mem c member))
        (show front.length + stops.length < fuel by omega)
      rw [strpbrk, first, if_pos notNul,
        meets_spec stopsAt c (show stops.length < fuel + 1 by omega), goesOn,
        List.length_cons, ← address_succ]
      exact others

/-- A text has no stop, or is cut at its first one. -/
theorem cut_cases (stops text : List (BitVec 8)) :
    (∀ c, c ∈ text → isStop stops c = false) ∨
      ∃ front stop rest, text = front ++ stop :: rest ∧
        (∀ c, c ∈ front → isStop stops c = false) ∧
        isStop stops stop = true := by
  induction text with
  | nil => exact Or.inl (by simp)
  | cons c text inductionHypothesis =>
      cases isHere : isStop stops c with
      | true => exact Or.inr ⟨[], c, text, rfl, by simp, isHere⟩
      | false =>
          rcases inductionHypothesis with clean | ⟨front, stop, rest, rfl, clean, cut⟩
          · left
            intro d member
            cases List.mem_cons.mp member with
            | inl same => rw [same, isHere]
            | inr later => exact clean d later
          · right
            refine ⟨c :: front, stop, rest, rfl, ?_, cut⟩
            intro d member
            cases List.mem_cons.mp member with
            | inl same => rw [same, isHere]
            | inr later => exact clean d later

/-- The call that takes the last piece. -/
theorem strsep_last (at_ : TextAt m s text) (stopsAt : TextAt m ct stops)
    (clean : ∀ c, c ∈ text → isStop stops c = false)
    (enough : text.length + stops.length < fuel) :
    strsep fuel m (some s) ct = some ⟨m, none, some s⟩ := by
  rw [strsep, strpbrk_none at_ stopsAt clean enough]
  rfl

/-- A call that cuts a piece off. -/
theorem strsep_cut {front rest : List (BitVec 8)} {stop : BitVec 8}
    (at_ : TextAt m s (front ++ stop :: rest)) (stopsAt : TextAt m ct stops)
    (clean : ∀ c, c ∈ front → isStop stops c = false)
    (stops_here : isStop stops stop = true)
    (inside : s.toNat + (front ++ stop :: rest).length < 2 ^ 32)
    (enough : front.length + stops.length < fuel) :
    strsep fuel m (some s) ct =
      some ⟨m.store8 (s.toNat + front.length) 0,
        some (s + BitVec.ofNat 32 (front.length + 1)), some s⟩ := by
  rw [List.length_append] at inside
  have isStopAddress :
      (s + BitVec.ofNat 32 front.length).toNat = s.toNat + front.length :=
    address_toNat (by omega)
  have isRestAddress : s + BitVec.ofNat 32 front.length + 1 =
      s + BitVec.ofNat 32 (front.length + 1) := by
    rw [BitVec.add_assoc]
    bv_omega
  rw [strsep, strpbrk_some at_ stopsAt clean stops_here enough]
  simp only [Option.bind_eq_bind, Option.bind_some, Option.pure_def,
    isStopAddress, isRestAddress]

/-- What a call of `strsep` leaves when it cuts: the token, and behind it the
rest of the string. -/
theorem cut_texts {front rest : List (BitVec 8)} {stop : BitVec 8}
    (at_ : TextAt m s (front ++ stop :: rest))
    (inside : s.toNat + (front ++ stop :: rest).length < 2 ^ 32) :
    TextAt (m.store8 (s.toNat + front.length) 0) s front ∧
      TextAt (m.store8 (s.toNat + front.length) 0)
        (s + BitVec.ofNat 32 (front.length + 1)) rest := by
  rw [List.length_append, List.length_cons] at inside
  have isRest : TextAt m (s + BitVec.ofNat 32 (front.length + 1)) rest := by
    have dropped := at_.drop (i := front.length + 1) (by simp)
    simpa using dropped
  constructor
  · refine ⟨bytesAt_append.mpr ⟨?_, ?_, trivial⟩, fun member =>
      at_.nonzero (List.mem_append_left _ member)⟩
    · apply (at_.front.initial (List.prefix_append front _)).congr
      intro i before
      rw [address_toNat (by omega)]
      exact if_neg (by omega)
    · rw [address_toNat (by omega)]
      exact if_pos rfl
  · apply isRest.congr
    intro i within
    have atRest : (s + BitVec.ofNat 32 (front.length + 1)).toNat =
        s.toNat + (front.length + 1) := address_toNat (by omega)
    rw [address_toNat (by rw [atRest]; omega), atRest]
    exact if_neg (by omega)

/-- Where the pieces of a string begin that are cut in place. -/
def pieceStarts : Word → List (List (BitVec 8)) → List Word
  | _, [] => []
  | s, piece :: pieces =>
      s :: pieceStarts (s + BitVec.ofNat 32 (piece.length + 1)) pieces

/-- A loop of `strsep` gives the pieces between the stops, in order and in
place; it writes to the string only. -/
theorem strsep_splits (at_ : TextAt m s text) (stopsAt : TextAt m ct stops)
    (inside : s.toNat + text.length < 2 ^ 32)
    (apart : ∀ i, i ≤ stops.length →
      (ct + BitVec.ofNat 32 i).toNat < s.toNat ∨
        s.toNat + text.length ≤ (ct + BitVec.ofNat 32 i).toNat)
    (enough : text.length + stops.length < fuel) {calls : Nat}
    (enoughCalls : text.length + 1 < calls) :
    ∃ m' tokens, strsepLoop fuel ct calls m (some s) = some (m', tokens) ∧
      tokens = pieceStarts s (text.splitOnP (isStop stops)) ∧
      List.Forall₂ (TextAt m') tokens (text.splitOnP (isStop stops)) ∧
      Memory.WritesWithin
        {position | s.toNat ≤ position ∧ position < s.toNat + text.length}
        m m' := by
  induction calls generalizing m s text with
  | zero => cases enoughCalls
  | succ calls inductionHypothesis =>
      rcases cut_cases stops text with clean | ⟨front, stop, rest, rfl, clean, cut⟩
      · obtain ⟨calls, rfl⟩ : ∃ more, calls = more + 1 :=
          Nat.exists_eq_add_one.mpr (by omega)
        refine ⟨m, [s], ?_, ?_, ?_, Memory.WritesWithin.refl _ _⟩
        · rw [strsepLoop, strsep_last at_ stopsAt clean enough]
          rfl
        · rw [List.splitOnP_eq_singleton clean]
          rfl
        · rw [List.splitOnP_eq_singleton clean]
          exact .cons at_ .nil
      · have shorter : front.length + stops.length < fuel := by
          rw [List.length_append] at enough
          omega
        have separated := strsep_cut at_ stopsAt clean cut inside shorter
        obtain ⟨tokenAt, restAt⟩ := cut_texts at_ inside
        rw [List.length_append, List.length_cons] at inside apart enough
        rw [List.length_append, List.length_cons] at enoughCalls
        have restAddress :
            (s + BitVec.ofNat 32 (front.length + 1)).toNat =
              s.toNat + (front.length + 1) := address_toNat (by omega)
        have stopsKept :
            TextAt (m.store8 (s.toNat + front.length) 0) ct stops := by
          apply stopsAt.congr
          intro i within
          have outside := apart i within
          exact if_neg (by omega)
        obtain ⟨m', tokens, run, starts, areTokens, writes⟩ :=
          inductionHypothesis restAt stopsKept (by rw [restAddress]; omega)
            (by
              intro i within
              have outside := apart i within
              rw [restAddress]
              omega)
            (by omega) (by omega)
        rw [restAddress] at writes
        refine ⟨m', s :: tokens, ?_, ?_, ?_, ?_⟩
        · rw [strsepLoop, separated]
          simp only [Option.bind_eq_bind, Option.bind_some, Option.pure_def, run]
        · rw [List.splitOnP_append_cons_of_forall_mem clean stop cut, starts]
          rfl
        · rw [List.splitOnP_append_cons_of_forall_mem clean stop cut]
          refine .cons (tokenAt.congr ?_) areTokens
          intro i within
          apply writes.unchanged
          rw [address_toNat (by omega)]
          intro range
          have above := range.1
          omega
        · have cutWrites : Memory.WritesWithin
              {position | s.toNat ≤ position ∧
                position < s.toNat + (front.length + (rest.length + 1))}
              m (m.store8 (s.toNat + front.length) 0) :=
            Memory.store8_writesWithin 0 m ⟨by omega, by omega⟩
          rw [List.length_append, List.length_cons]
          apply cutWrites.trans
          apply writes.mono
          intro position range
          have above := range.1
          have below := range.2
          exact ⟨by omega, by omega⟩

end Tokens

/-- The string `a,,b`, and behind it the string `,`. -/
def exampleFields : Memory where
  bytes position :=
    [0x61, 0x2C, 0x2C, 0x62, 0, 0x2C, 0].getD (position - 0x100) 0
  log := []

theorem strsep_splits_fields :
    ∃ m',
      strsepLoop 6 0x105 6 exampleFields (some 0x100) =
        some (m', [0x100, 0x102, 0x103]) ∧
      TextAt m' 0x100 [0x61] ∧ TextAt m' 0x102 [] ∧ TextAt m' 0x103 [0x62] := by
  have fields : TextAt exampleFields 0x100 [0x61, 0x2C, 0x2C, 0x62] :=
    ⟨⟨by decide, by decide, by decide, by decide, by decide, trivial⟩, by simp⟩
  have comma : TextAt exampleFields 0x105 [0x2C] :=
    ⟨⟨by decide, by decide, trivial⟩, by simp⟩
  obtain ⟨m', tokens, run, starts, areTokens, -⟩ :=
    strsep_splits fields comma (by decide) (by decide)
      (show 4 + 1 < 6 by simp) (show 4 + 1 < 6 by simp)
  have isStarts : tokens = [0x100, 0x102, 0x103] := starts.trans (by decide)
  subst isStarts
  obtain ⟨first, second, third, -⟩ := List.forall₂_cons.mp areTokens |>.imp_right
    fun rest => List.forall₂_cons.mp rest |>.imp_right
      fun rest => List.forall₂_cons.mp rest
  exact ⟨m', run, first, second, third⟩

end Hlos.Libs.Strings
