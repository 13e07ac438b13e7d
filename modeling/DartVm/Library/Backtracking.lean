import Mathlib.Data.Nat.Notation
import Mathlib.Logic.Function.Basic

/-! # Backtracking regular expressions

A pattern is run with a continuation that has to succeed for the match to count: choices are tried
in order.  `Consumes` is the rule for runs that need no second choice.

* `Pattern`: the patterns.
* `Consumes`: the first way through a pattern, with a rule for each constructor.
* `Consumes.firstMatch_eq`: the match of a whole input. -/

namespace DartVm.Backtracking

open List

variable {α : Type}

/-- **Patterns** of a backtracking matcher; the order of alternatives is the order in which they are
tried. -/
inductive Pattern (α : Type)
  | empty
  | char (cls : α → Bool)
  | seq (p q : Pattern α)
  | alt (p q : Pattern α)
  /-- `p?`, which prefers to match. -/
  | opt (p : Pattern α)
  /-- At most `n` characters of a class, which prefers to match more of them. -/
  | upTo (cls : α → Bool) (n : ℕ)
  /-- Any number of characters of a class, which prefers to match more of them. -/
  | many (cls : α → Bool)
  | group (index : ℕ) (p : Pattern α)
  /-- `^`. -/
  | atStart
  /-- `$`. -/
  | atEnd

namespace Pattern

/-- `n` characters of a class. -/
def times (cls : α → Bool) : ℕ → Pattern α
  | 0 => .empty
  | n + 1 => .seq (.char cls) (times cls n)

/-- From `min` to `min + extra` characters of a class. -/
def between (cls : α → Bool) (min extra : ℕ) : Pattern α := .seq (times cls min) (.upTo cls extra)

/-- At least one character of a class. -/
def many1 (cls : α → Bool) : Pattern α := .seq (.char cls) (.many cls)

end Pattern

/-- What the groups have captured. -/
abbrev Groups (α : Type) := ℕ → Option (List α)

/-- The state of a match: the position, the input from it on, and the captures. -/
structure State (α : Type) where
  rest : List α
  pos : ℕ
  groups : Groups α

/-- At most `n` characters of a class, more of them first. -/
def runUpTo {β : Type} (cls : α → Bool) (k : State α → Option β) : ℕ → State α → Option β
  | 0, s => k s
  | n + 1, s =>
    match s.rest with
    | [] => k s
    | c :: cs =>
      if cls c then runUpTo cls k n ⟨cs, s.pos + 1, s.groups⟩ <|> k s else k s

/-- Runs a pattern, and then the continuation. -/
def Pattern.run {β : Type} : Pattern α → (State α → Option β) → State α → Option β
  | .empty, k, s => k s
  | .char cls, k, s =>
    match s.rest with
    | [] => none
    | c :: cs => if cls c then k ⟨cs, s.pos + 1, s.groups⟩ else none
  | .seq p q, k, s => p.run (q.run k) s
  | .alt p q, k, s => p.run k s <|> q.run k s
  | .opt p, k, s => p.run k s <|> k s
  | .upTo cls n, k, s => runUpTo cls k n s
  | .many cls, k, s => runUpTo cls k s.rest.length s
  | .group index p, k, s => p.run (fun s' => k ⟨s'.rest, s'.pos, Function.update s'.groups index
      (some (s.rest.take (s'.pos - s.pos)))⟩) s
  | .atStart, k, s => if s.pos = 0 then k s else none
  | .atEnd, k, s => if s.rest = [] then k s else none

/-- The first match at a position or after it. -/
def matchFrom (p : Pattern α) : ℕ → List α → Option (Groups α)
  | pos, [] => (p.run some ⟨[], pos, fun _ => none⟩).map State.groups
  | pos, c :: cs =>
    (p.run some ⟨c :: cs, pos, fun _ => none⟩).map State.groups <|> matchFrom p (pos + 1) cs

/-- The first match in the input. -/
def firstMatch (p : Pattern α) (input : List α) : Option (Groups α) := matchFrom p 0 input

/-! ## Rules -/

variable {p q : Pattern α} {cls : α → Bool} {ds es rest : List α} {f f' : Groups α → Groups α}
  {c : α} {n min extra : ℕ}

/-- **The first way through the pattern** takes `ds` from the input, and changes the captures by
`f`. -/
def Consumes (p : Pattern α) (ds rest : List α) (f : Groups α → Groups α) : Prop :=
  ∀ (k : State α → Option (State α)) (pos : ℕ) (g : Groups α) (r : State α),
    k ⟨rest, pos + ds.length, f g⟩ = some r → p.run k ⟨ds ++ rest, pos, g⟩ = some r

/-- The pattern does not match at the start of `rest`. -/
def Fails (p : Pattern α) (rest : List α) : Prop :=
  ∀ (k : State α → Option (State α)) (pos : ℕ) (g : Groups α), p.run k ⟨rest, pos, g⟩ = none

/-- The empty pattern consumes nothing. -/
theorem consumes_empty : Consumes .empty [] rest id := fun _ _ _ _ h => h

/-- A character of the class is consumed. -/
theorem consumes_char (h : cls c = true) : Consumes (.char cls) [c] rest id := by
  intro k pos g r hk
  exact (if_pos h).trans hk

/-- A character outside the class makes the pattern fail. -/
theorem fails_char (h : cls c = false) : Fails (.char cls) (c :: rest) := by
  intro k pos g
  exact if_neg (by rw [h]; exact Bool.false_ne_true)

/-- Patterns in sequence consume one text after the other. -/
theorem Consumes.seq (hp : Consumes p ds (es ++ rest) f) (hq : Consumes q es rest f') :
    Consumes (.seq p q) (ds ++ es) rest (f' ∘ f) := by
  intro k pos g r hk
  rw [append_assoc]
  refine hp _ pos g r (hq k _ _ r ?_)
  rwa [length_append, ← Nat.add_assoc] at hk

/-- An optional pattern consumes what it can. -/
theorem Consumes.opt (hp : Consumes p ds rest f) : Consumes (.opt p) ds rest f := by
  intro k pos g r hk
  show (p.run k _ <|> k _) = some r
  rw [hp k pos g r hk]
  rfl

/-- An optional pattern that fails is passed over. -/
theorem Fails.opt (hp : Fails p rest) : Consumes (.opt p) [] rest id := by
  intro k pos g r hk
  show (p.run k ⟨rest, pos, g⟩ <|> k ⟨rest, pos, g⟩) = some r
  rw [hp k pos g]
  exact hk

/-- The first alternative is preferred. -/
theorem Consumes.alt_left (hp : Consumes p ds rest f) : Consumes (.alt p q) ds rest f := by
  intro k pos g r hk
  show (p.run k _ <|> q.run k _) = some r
  rw [hp k pos g r hk]
  rfl

/-- A group records what it has consumed. -/
theorem Consumes.group (index : ℕ) (hp : Consumes p ds rest f) :
    Consumes (.group index p) ds rest fun g => Function.update (f g) index (some ds) := by
  intro k pos g r hk
  refine hp _ pos g r ?_
  rwa [show (ds ++ rest).take (pos + ds.length - pos) = ds by
    rw [Nat.add_sub_cancel_left, take_left']
    rfl]

/-- A fixed number of characters of a class. -/
theorem consumes_times (rest : List α) (hds : ∀ c ∈ ds, cls c = true) :
    Consumes (Pattern.times cls ds.length) ds rest id := by
  induction ds with
  | nil => exact consumes_empty
  | cons c ds ih =>
    have hc : Consumes (.char cls) [c] (ds ++ rest) id := consumes_char (hds c mem_cons_self)
    exact hc.seq (ih fun c' hc' => hds c' (mem_cons_of_mem c hc'))

section

variable (hds : ∀ c ∈ ds, cls c = true) (hne : ds ≠ [])
  (hrest : ∀ c cs, rest = c :: cs → cls c = false)
include hds hne hrest

omit hne in
/-- All characters of the class are taken if the next one is not of it. -/
theorem runUpTo_of_some {k : State α → Option (State α)} {pos : ℕ} {g : Groups α} {r : State α}
    (hn : ds.length ≤ n) (hk : k ⟨rest, pos + ds.length, g⟩ = some r) :
    runUpTo cls k n ⟨ds ++ rest, pos, g⟩ = some r := by
  induction ds generalizing n pos with
  | nil =>
    cases n with
    | zero => exact hk
    | succ n =>
      cases rest with
      | nil => exact hk
      | cons c cs => exact (if_neg (by rw [hrest c cs rfl]; exact Bool.false_ne_true)).trans hk
  | cons c ds ih =>
    obtain ⟨n, rfl⟩ : ∃ m, n = m + 1 := ⟨n - 1, by rw [length_cons] at hn; omega⟩
    rw [length_cons] at hn hk
    have hrun : runUpTo cls k n ⟨ds ++ rest, pos + 1, g⟩ = some r :=
      ih (fun c' hc' => hds c' (mem_cons_of_mem c hc')) (by omega)
        (by rwa [show pos + 1 + ds.length = pos + (ds.length + 1) by omega])
    refine (if_pos (hds c mem_cons_self)).trans ?_
    show (runUpTo cls k n ⟨ds ++ rest, pos + 1, g⟩ <|> k ⟨c :: ds ++ rest, pos, g⟩) = some r
    rw [hrun]
    rfl

omit hne in
/-- A bounded repetition consumes as many characters of the class as there are. -/
theorem consumes_upTo (hn : ds.length ≤ n) : Consumes (.upTo cls n) ds rest id :=
  fun _ _ _ _ hk => runUpTo_of_some hds hrest hn hk

omit hne in
/-- A repetition consumes all characters of the class. -/
theorem consumes_many : Consumes (.many cls) ds rest id :=
  fun _ _ _ _ hk => runUpTo_of_some hds hrest (by simp) hk

omit hne in
/-- A repetition with both bounds consumes as many characters as there are. -/
theorem consumes_between (hmin : min ≤ ds.length)
    (hmax : ds.length ≤ min + extra) : Consumes (.between cls min extra) ds rest id := by
  have htake : Consumes (.times cls min) (ds.take min) (ds.drop min ++ rest) id := by
    have h := consumes_times (ds.drop min ++ rest)
      (fun c (hc : c ∈ ds.take min) => hds c (mem_of_mem_take hc))
    rwa [length_take_of_le hmin] at h
  have hdrop : Consumes (.upTo cls extra) (ds.drop min) rest id :=
    consumes_upTo (fun c hc => hds c (mem_of_mem_drop hc)) hrest
      (by rw [length_drop]; omega)
  have hseq := htake.seq hdrop
  rwa [take_append_drop] at hseq

/-- A repetition that asks for one character at least. -/
theorem consumes_many1 : Consumes (.many1 cls) ds rest id := by
  obtain ⟨c, cs, rfl⟩ := exists_cons_of_ne_nil hne
  have hc : Consumes (.char cls) [c] (cs ++ rest) id := consumes_char (hds c mem_cons_self)
  exact hc.seq (consumes_many (fun c' hc' => hds c' (mem_cons_of_mem c hc')) hrest)

end

/-- **The match of a whole input.** -/
theorem Consumes.firstMatch_eq (hp : Consumes p ds [] f) :
    firstMatch (.seq .atStart (.seq p .atEnd)) ds = some (f fun _ => none) := by
  have hrun : (Pattern.seq .atStart (.seq p .atEnd)).run some ⟨ds, 0, fun _ => none⟩
      = some ⟨[], 0 + ds.length, f fun _ => none⟩ := by
    have h := hp (Pattern.atEnd.run some) 0 (fun _ => none) _ (if_pos rfl)
    rw [append_nil] at h
    show (if 0 = 0 then p.run (Pattern.atEnd.run some) ⟨ds, 0, fun _ => none⟩ else none) = _
    rw [if_pos rfl, h]
  unfold firstMatch
  cases ds with
  | nil | cons c cs => rw [matchFrom, hrun]; rfl

end DartVm.Backtracking
