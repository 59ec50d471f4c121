import Primer.Proofs.Script.Numeral

/-!
# Phrases

A phrase is an expression as a reader of its tokens sees it. The reader follows the grammar of
Python for the operators that scripts have, from the loosest to the tightest: comparisons, sums,
products, minus signs, and calls and subscripts. Sums and products group to the left. Of comparisons
only one is read at a time.

`Expr.Grouped` describes the expressions whose text has as many parentheses as it takes. Reading
their tokens gives their phrase (`Expr.Grouped.phrase?_tokens`).
-/

namespace Primer.Script

/-- An expression as its tokens show it. -/
inductive Phrase where
  | none
  | bool (value : Bool)
  | int (value : Nat)
  | float (value : ℚ)
  | str (value : List Char)
  | name (text : String)
  | group (operand : Phrase)
  | negate (operand : Phrase)
  | binary (op : BinOp) (lhs rhs : Phrase)
  | call (callee : Phrase) (arguments : List Phrase)
  | subscript (base position : Phrase)
  | list (elements : List Phrase)

/-- How tight an operator binds: comparisons are loosest, then come sums and products. -/
def level : BinOp → Nat
  | .less | .greater | .equal | .notEqual => 0
  | .add | .sub => 1
  | .mul | .div => 2

theorem level_lt_three (op : BinOp) : level op < 3 := by
  cases op <;> decide

/-! ## The reader -/

/-- What a name stands for. Keywords are no names, but three of them are constants. -/
def named? (word : String) : Option Phrase :=
  if word = "None" then some .none
  else if word = "True" then some (.bool true)
  else if word = "False" then some (.bool false)
  else if word ∈ keywords then Option.none
  else some (.name word)

mutual

/-- Reads an expression whose operators bind at least as tight as a level. -/
def expression? : Nat → Nat → List Token → Option (Phrase × List Token)
  | 0, _, _ => Option.none
  | n + 1, l, ts =>
    if l < 3 then do
      let (lhs, ts) ← expression? n (l + 1) ts
      operators? n l lhs ts
    else unary? n ts

/-- Reads the operators of a level that follow an operand, with their right operands. -/
def operators? : Nat → Nat → Phrase → List Token → Option (Phrase × List Token)
  | 0, _, _, _ => Option.none
  | n + 1, l, lhs, ts =>
    match ts with
    | .op op :: rest =>
      if level op = l then do
        let (rhs, rest) ← expression? n (l + 1) rest
        if l = 0 then return (.binary op lhs rhs, rest)
        else operators? n l (.binary op lhs rhs) rest
      else some (lhs, ts)
    | _ => some (lhs, ts)

/-- Reads an operand with the minus signs in front of it. -/
def unary? : Nat → List Token → Option (Phrase × List Token)
  | 0, _ => Option.none
  | n + 1, ts =>
    if ts.head? = some (.op .sub) then do
      let (operand, ts) ← unary? n ts.tail
      return (.negate operand, ts)
    else primary? n ts

/-- Reads an operand without operators. -/
def primary? : Nat → List Token → Option (Phrase × List Token)
  | 0, _ => Option.none
  | n + 1, ts => do
    let (base, ts) ← atom? n ts
    trailers? n base ts

/-- Reads the calls and subscripts behind an operand. -/
def trailers? : Nat → Phrase → List Token → Option (Phrase × List Token)
  | 0, _, _ => Option.none
  | n + 1, base, ts =>
    match ts with
    | .left .round :: rest => do
      let (arguments, rest) ← sequence? n .round rest
      trailers? n (.call base arguments) rest
    | .left .square :: rest => do
      let (position, rest) ← expression? n 0 rest
      match rest with
      | .right .square :: rest => trailers? n (.subscript base position) rest
      | _ => Option.none
    | _ => some (base, ts)

/-- Reads a constant, a name, or what stands between brackets. -/
def atom? : Nat → List Token → Option (Phrase × List Token)
  | 0, _ => Option.none
  | n + 1, ts =>
    match ts with
    | .name word :: rest => (named? word).map (·, rest)
    | .int value :: rest => some (.int value, rest)
    | .float value :: rest => some (.float value, rest)
    | .str value :: rest => some (.str value, rest)
    | .left .round :: rest => do
      -- Inside parentheses the loosest operator is allowed again.
      let (operand, rest) ← expression? n 0 rest
      match rest with
      | .right .round :: rest => return (.group operand, rest)
      | _ => Option.none
    | .left .square :: rest => do
      let (elements, rest) ← sequence? n .square rest
      return (.list elements, rest)
    | _ => Option.none

/-- Reads expressions with commas between them, up to a bracket. -/
def sequence? : Nat → Bracket → List Token → Option (List Phrase × List Token)
  | 0, _, _ => Option.none
  | n + 1, b, ts =>
    if ts.head? = some (.right b) then some ([], ts.tail)
    else do
      let (first, ts) ← expression? n 0 ts
      let (rest, ts) ← more? n b ts
      return (first :: rest, ts)

/-- Reads what follows an expression up to a bracket. -/
def more? : Nat → Bracket → List Token → Option (List Phrase × List Token)
  | 0, _, _ => Option.none
  | n + 1, b, ts =>
    match ts with
    | .comma :: ts => do
      let (first, ts) ← expression? n 0 ts
      let (rest, ts) ← more? n b ts
      return (first :: rest, ts)
    | .right b' :: ts => if b' = b then some ([], ts) else Option.none
    | _ => Option.none

end

/-- How many calls it takes to get from an expression to the first token in it, and some more. -/
def callsPerToken : Nat := 8

/-- Reads tokens that form one expression. -/
def phrase? (ts : List Token) : Option Phrase :=
  match expression? (callsPerToken * ts.length) 0 ts with
  | some (phrase, []) => some phrase
  | _ => Option.none

/-! ## Expressions that are grouped -/

/-- How tight the text of an expression binds. -/
def Expr.level : Expr → Nat
  | .binary op _ _ => Script.level op
  | .negate _ => 3
  | _ => 4

/-- A name that is not taken for anything else. -/
structure IsName (name : String) : Prop where
  identifier : isIdentifier name = true
  free : name ∉ keywords

/-- Expressions whose operands are in parentheses wherever they bind looser than their place. -/
inductive Expr.Grouped : Expr → Prop where
  | int (value : Nat) : Grouped (.int value)
  | float {bits} (h : isUnsigned bits = true) : Grouped (.float bits)
  | bool (value : Bool) : Grouped (.bool value)
  | str (value : List Char) : Grouped (.str value)
  | name {text} (h : IsName text) : Grouped (.name text)
  | call {callee arguments} (hcallee : IsName callee) (harguments : ∀ e ∈ arguments, Grouped e) :
      Grouped (.call callee arguments)
  | subscript {base position} (hbase : IsName base) (hposition : Grouped position) :
      Grouped (.subscript base position)
  | paren {operand} (hoperand : Grouped operand) : Grouped (.paren operand)
  | negate {operand} (hoperand : Grouped operand) (htight : 3 ≤ operand.level) :
      Grouped (.negate operand)
  | binary {op lhs rhs} (hlhs : Grouped lhs) (hrhs : Grouped rhs)
      (hleft : max 1 (Script.level op) ≤ lhs.level) (hright : Script.level op < rhs.level) :
      Grouped (.binary op lhs rhs)
  | list {elements} (helements : ∀ e ∈ elements, Grouped e) : Grouped (.list elements)

namespace Expr

mutual

/-- The tokens of an expression. -/
def tokens : Expr → List Token
  | .none => [.name "None"]
  | .int value => [.int value.toNat]
  | .float bits => [.float (floatValue bits)]
  | .bool true => [.name "True"]
  | .bool false => [.name "False"]
  | .str value => [.str value]
  | .name text => [.name text]
  | .call callee arguments =>
    .name callee :: .left .round :: (tokensAll arguments ++ [.right .round])
  | .subscript base position => .name base :: .left .square :: (position.tokens ++ [.right .square])
  | .paren operand => .left .round :: (operand.tokens ++ [.right .round])
  | .negate operand => .op .sub :: operand.tokens
  | .binary op lhs rhs => lhs.tokens ++ .op op :: rhs.tokens
  | .list elements => .left .square :: (tokensAll elements ++ [.right .square])

/-- The tokens of several expressions with commas between them. -/
def tokensAll : List Expr → List Token
  | [] => []
  | e :: es => e.tokens ++ tokensMore es

/-- The tokens of several expressions with a comma before each. -/
def tokensMore : List Expr → List Token
  | [] => []
  | e :: es => .comma :: (e.tokens ++ tokensMore es)

end

mutual

/-- What a reader should make of an expression. -/
def phrase : Expr → Phrase
  | .none => .none
  | .int value => .int value.toNat
  | .float bits => .float (floatValue bits)
  | .bool value => .bool value
  | .str value => .str value
  | .name text => .name text
  | .call callee arguments => .call (.name callee) (phrases arguments)
  | .subscript base position => .subscript (.name base) position.phrase
  | .paren operand => .group operand.phrase
  | .negate operand => .negate operand.phrase
  | .binary op lhs rhs => .binary op lhs.phrase rhs.phrase
  | .list elements => .list (phrases elements)

/-- What a reader should make of several expressions. -/
def phrases : List Expr → List Phrase
  | [] => []
  | e :: es => e.phrase :: phrases es

end

end Expr

/-! ## Reading tokens -/

/-- Tokens that do not go on with an expression of a level: no operator that binds as tight, and no
bracket that opens. -/
def Stops (l : Nat) : List Token → Prop
  | .op op :: _ => level op < l
  | .left _ :: _ => False
  | _ => True

theorem Stops.mono {l l' : Nat} {ts : List Token} (h : Stops l ts) (hl : l ≤ l') : Stops l' ts := by
  match ts, h with
  | .op op :: _, h => exact Nat.lt_of_lt_of_le h hl
  | [], _ => trivial
  | .name _ :: _, _ => trivial
  | .int _ :: _, _ => trivial
  | .float _ :: _, _ => trivial
  | .str _ :: _, _ => trivial
  | .right _ :: _, _ => trivial
  | .comma :: _, _ => trivial

theorem operators?_of_stops {n l : Nat} {lhs : Phrase} {rest : List Token} (h : Stops l rest) :
    operators? (n + 1) l lhs rest = some (lhs, rest) := by
  unfold operators?
  split
  next op ts => rw [if_neg (Nat.ne_of_lt h)]
  next => rfl

theorem trailers?_of_stops {n l : Nat} {base : Phrase} {rest : List Token} (h : Stops l rest) :
    trailers? (n + 1) base rest = some (base, rest) := by
  unfold trailers?
  split
  next => exact h.elim
  next => exact h.elim
  next => rfl

theorem trailers?_call {n : Nat} {base : Phrase} {xs : List Phrase} {ts rest : List Token}
    (h : sequence? n .round ts = some (xs, rest)) :
    trailers? (n + 1) base (.left .round :: ts) = trailers? n (.call base xs) rest := by
  rw [trailers?, h]
  rfl

theorem trailers?_subscript {n : Nat} {base x : Phrase} {ts rest : List Token}
    (h : expression? n 0 ts = some (x, .right .square :: rest)) :
    trailers? (n + 1) base (.left .square :: ts) = trailers? n (.subscript base x) rest := by
  rw [trailers?, h]
  rfl

/-- The first operand at a level, and the operators that follow it. -/
theorem expression?_operators {n l : Nat} {ts rest : List Token} {x : Phrase} (hl : l < 3)
    (h : expression? n (l + 1) ts = some (x, rest)) :
    expression? (n + 1) l ts = operators? n l x rest := by
  rw [expression?, if_pos hl, h]
  rfl

theorem operators?_op {n l : Nat} {op : BinOp} {x y : Phrase} {ts rest : List Token}
    (hop : level op = l) (h : expression? n (l + 1) ts = some (y, rest)) :
    operators? (n + 1) l x (.op op :: ts) =
      if l = 0 then some (.binary op x y, rest) else operators? n l (.binary op x y) rest := by
  rw [operators?, if_pos hop, h]
  rfl

/-- The same over several levels. -/
theorem expression?_of_level {n l : Nat} {ts rest : List Token} {x : Phrase} (d : Nat)
    (hd : l + d ≤ 3) (h : expression? (n + 1) (l + d) ts = some (x, rest))
    (hrest : Stops l rest) : expression? (n + 1 + d) l ts = some (x, rest) := by
  induction d generalizing l with
  | zero => exact h
  | succ d ih =>
    rw [← Nat.add_assoc, Nat.add_right_comm] at h
    have hnext := ih (by omega) h (hrest.mono (Nat.le_succ l))
    rw [Nat.add_right_comm] at hnext
    have hfuel : n + 1 + (d + 1) = n + d + 1 + 1 := by omega
    rw [hfuel]
    rw [expression?_operators (by omega) hnext]
    exact operators?_of_stops hrest

namespace Expr

/-- An expression starts with a token that does not end a sequence. -/
theorem exists_tokens_eq_cons :
    ∀ e : Expr, ∃ t ts, e.tokens = t :: ts ∧ ∀ b, t ≠ .right b
  | .none => ⟨_, _, rfl, by simp⟩
  | .int _ => ⟨_, _, rfl, by simp⟩
  | .float _ => ⟨_, _, rfl, by simp⟩
  | .bool true => ⟨_, _, rfl, by simp⟩
  | .bool false => ⟨_, _, rfl, by simp⟩
  | .str _ => ⟨_, _, rfl, by simp⟩
  | .name _ => ⟨_, _, rfl, by simp⟩
  | .call _ _ => ⟨_, _, rfl, by simp⟩
  | .subscript _ _ => ⟨_, _, rfl, by simp⟩
  | .paren _ => ⟨_, _, rfl, by simp⟩
  | .negate _ => ⟨_, _, rfl, by simp⟩
  | .list _ => ⟨_, _, rfl, by simp⟩
  | .binary op lhs rhs => by
    -- An operation starts with its left operand.
    obtain ⟨t, ts, hts, ht⟩ := exists_tokens_eq_cons lhs
    exact ⟨t, ts ++ .op op :: rhs.tokens, by simp [tokens, hts], ht⟩

theorem length_tokens_pos (e : Expr) : 0 < e.tokens.length := by
  obtain ⟨t, ts, hts, -⟩ := e.exists_tokens_eq_cons
  simp [hts]

/-- The tokens of an expression are read at a level. -/
def ReadsAt (l : Nat) (e : Expr) : Prop :=
  ∀ ⦃n : Nat⦄ ⦃rest : List Token⦄, Stops l rest →
    callsPerToken * e.tokens.length ≤ n + l + 1 →
    expression? n l (e.tokens ++ rest) = some (e.phrase, rest)

/-- The tokens of an expression are read as an operand without operators. -/
def ReadsPrimary (e : Expr) : Prop :=
  ∀ ⦃n : Nat⦄ ⦃rest : List Token⦄, Stops 3 rest → callsPerToken * e.tokens.length ≤ n + 6 →
    primary? n (e.tokens ++ rest) = some (e.phrase, rest)

/-- What is read at a level is read at the looser ones. -/
theorem ReadsAt.looser {l m : Nat} {e : Expr} (h : e.ReadsAt m) (hm : m ≤ 3) (hl : l ≤ m) :
    e.ReadsAt l := by
  intro n rest hrest hn
  have hpos := e.length_tokens_pos
  obtain ⟨d, rfl⟩ := Nat.exists_eq_add_of_le hl
  simp only [callsPerToken] at hn
  obtain ⟨n', rfl⟩ : ∃ n', n = n' + 1 + d := ⟨n - 1 - d, by omega⟩
  refine expression?_of_level d hm (h (hrest.mono hl) ?_) hrest
  simp only [callsPerToken]
  omega

/-- An operand without operators does not start with a minus sign. -/
theorem ReadsPrimary.readsAt {e : Expr} (h : e.ReadsPrimary)
    (hhead : e.tokens.head? ≠ some (.op .sub)) : e.ReadsAt 3 := by
  intro n rest hrest hn
  have hpos := e.length_tokens_pos
  simp only [callsPerToken] at hn
  obtain ⟨n', rfl⟩ : ∃ n', n = n' + 2 := ⟨n - 2, by omega⟩
  have hhead' : (e.tokens ++ rest).head? ≠ some (.op .sub) := by
    rwa [List.head?_append_of_ne_nil _ (List.ne_nil_of_length_pos hpos)]
  rw [expression?, if_neg (by decide), unary?, if_neg hhead']
  refine h hrest ?_
  simp only [callsPerToken]
  omega

theorem readsAt_negate {operand : Expr} (h : operand.ReadsAt 3) :
    (Expr.negate operand).ReadsAt 3 := by
  intro n rest hrest hn
  have hpos := operand.length_tokens_pos
  simp only [callsPerToken, tokens, List.length_cons] at hn
  obtain ⟨n', rfl⟩ : ∃ n', n = n' + 2 := ⟨n - 2, by omega⟩
  have hoperand :
      expression? (n' + 1) 3 (operand.tokens ++ rest) = some (operand.phrase, rest) := by
    refine h hrest ?_
    simp only [callsPerToken]
    omega
  rw [expression?, if_neg (by decide)] at hoperand ⊢
  rw [tokens, List.cons_append, unary?, if_pos List.head?_cons, List.tail_cons, hoperand]
  rfl

/-! ### Sequences -/

theorem more?_tokensMore {b : Bracket} {rest : List Token} {es : List Expr}
    (h : ∀ e ∈ es, e.ReadsAt 0) {n : Nat} (hn : callsPerToken * (tokensMore es).length < n) :
    more? n b (tokensMore es ++ .right b :: rest) = some (phrases es, rest) := by
  induction es generalizing n with
  | nil =>
    obtain ⟨n, rfl⟩ : ∃ n', n = n' + 1 := ⟨n - 1, by omega⟩
    simp [tokensMore, more?, phrases]
  | cons e es ih =>
    simp only [callsPerToken, tokensMore, List.length_cons, List.length_append] at hn
    obtain ⟨n, rfl⟩ : ∃ n', n = n' + 1 := ⟨n - 1, by omega⟩
    -- A comma or a closing bracket ends an expression at every level.
    have hstops : Stops 0 (tokensMore es ++ .right b :: rest) := by
      cases es <;> simp [tokensMore, Stops]
    -- The comma has paid for the call that reads the expression behind it.
    have hfirst : expression? n 0 (e.tokens ++ (tokensMore es ++ .right b :: rest)) =
        some (e.phrase, tokensMore es ++ .right b :: rest) := by
      refine h e List.mem_cons_self hstops ?_
      simp only [callsPerToken]
      omega
    have hmore : more? n b (tokensMore es ++ .right b :: rest) = some (phrases es, rest) :=
      ih (fun e he => h e (List.mem_cons_of_mem _ he)) (by simp only [callsPerToken]; omega)
    rw [tokensMore, List.cons_append, List.append_assoc, more?, hfirst]
    simp only [Option.bind_eq_bind, Option.bind_some, hmore, phrases]
    rfl

theorem sequence?_tokensAll {b : Bracket} {rest : List Token} {es : List Expr}
    (h : ∀ e ∈ es, e.ReadsAt 0) {n : Nat} (hn : callsPerToken * (tokensAll es).length < n) :
    sequence? n b (tokensAll es ++ .right b :: rest) = some (phrases es, rest) := by
  obtain ⟨n, rfl⟩ : ∃ n', n = n' + 1 := ⟨n - 1, by omega⟩
  cases es with
  | nil => simp [tokensAll, sequence?, phrases]
  | cons e es =>
    -- The first element has a token, which pays for this call.
    have hpos := e.length_tokens_pos
    -- It does not start with a closing bracket, so the list is not taken for an empty one.
    obtain ⟨t, ts, hts, hright⟩ := e.exists_tokens_eq_cons
    simp only [callsPerToken, tokensAll, List.length_append] at hn
    have hstops : Stops 0 (tokensMore es ++ .right b :: rest) := by
      cases es <;> simp [tokensMore, Stops]
    have hfirst : expression? n 0 (e.tokens ++ (tokensMore es ++ .right b :: rest)) =
        some (e.phrase, tokensMore es ++ .right b :: rest) := by
      refine h e List.mem_cons_self hstops ?_
      simp only [callsPerToken]
      omega
    have hmore : more? n b (tokensMore es ++ .right b :: rest) = some (phrases es, rest) :=
      more?_tokensMore (fun e he => h e (List.mem_cons_of_mem _ he))
        (by simp only [callsPerToken]; omega)
    rw [tokensAll, List.append_assoc, sequence?, if_neg (by simp [hts, hright b]), hfirst]
    simp only [Option.bind_eq_bind, Option.bind_some, hmore, phrases]
    rfl

/-! ### Operands -/

theorem named?_of_isName {word : String} (h : IsName word) : named? word = some (.name word) := by
  have hnot : ∀ keyword ∈ ["None", "True", "False"], word ≠ keyword := by
    rintro keyword hkeyword rfl
    exact h.free ((by decide : ∀ k ∈ ["None", "True", "False"], k ∈ keywords) _ hkeyword)
  simp [named?, hnot "None", hnot "True", hnot "False", h.free]

/-- The tokens of an expression are read as a constant, a name, or what stands between brackets. -/
def ReadsAtom (e : Expr) : Prop :=
  ∀ ⦃n : Nat⦄ ⦃rest : List Token⦄, callsPerToken * e.tokens.length ≤ n + 7 →
    atom? n (e.tokens ++ rest) = some (e.phrase, rest)

theorem ReadsAtom.readsPrimary {e : Expr} (h : e.ReadsAtom) : e.ReadsPrimary := by
  intro n rest hrest hn
  have hpos := e.length_tokens_pos
  simp only [callsPerToken] at hn
  obtain ⟨n, rfl⟩ : ∃ n', n = n' + 2 := ⟨n - 2, by omega⟩
  have hatom : atom? (n + 1) (e.tokens ++ rest) = some (e.phrase, rest) := by
    refine h ?_
    simp only [callsPerToken]
    omega
  rw [primary?, hatom]
  exact trailers?_of_stops hrest

/-- One token is enough for a constant or a name. -/
theorem readsAtom_of_token {e : Expr} {t : Token} (htokens : e.tokens = [t])
    (h : ∀ n rest, atom? (n + 1) (t :: rest) = some (e.phrase, rest)) : e.ReadsAtom := by
  intro n rest hn
  simp only [htokens, callsPerToken, List.length_singleton] at hn
  obtain ⟨n, rfl⟩ : ∃ n', n = n' + 1 := ⟨n - 1, by omega⟩
  rw [htokens]
  exact h n rest

theorem readsAtom_int (value : Int) : (Expr.int value).ReadsAtom :=
  readsAtom_of_token rfl fun _ _ => rfl

theorem readsAtom_float (bits : UInt64) : (Expr.float bits).ReadsAtom :=
  readsAtom_of_token rfl fun _ _ => rfl

theorem readsAtom_str (value : List Char) : (Expr.str value).ReadsAtom :=
  readsAtom_of_token rfl fun _ _ => rfl

theorem atom?_name (n : Nat) (word : String) (rest : List Token) :
    atom? (n + 1) (.name word :: rest) = (named? word).map (·, rest) := rfl

theorem readsAtom_name {text : String} (h : IsName text) : (Expr.name text).ReadsAtom := by
  refine readsAtom_of_token rfl fun n rest => ?_
  rw [atom?_name, named?_of_isName h]
  rfl

theorem readsAtom_bool (value : Bool) : (Expr.bool value).ReadsAtom := by
  cases value with
  | false => exact readsAtom_of_token rfl fun n rest => by simp [atom?_name, named?, phrase]
  | true => exact readsAtom_of_token rfl fun n rest => by simp [atom?_name, named?, phrase]

theorem readsAtom_paren {operand : Expr} (h : operand.ReadsAt 0) :
    (Expr.paren operand).ReadsAtom := by
  intro n rest hn
  simp only [tokens, callsPerToken, List.length_cons, List.length_append, List.length_nil] at hn
  obtain ⟨n, rfl⟩ : ∃ n', n = n' + 1 := ⟨n - 1, by omega⟩
  have hoperand : expression? n 0 (operand.tokens ++ .right .round :: rest) =
      some (operand.phrase, .right .round :: rest) := by
    refine h trivial ?_
    simp only [callsPerToken]
    omega
  simp [tokens, atom?, hoperand, phrase]

theorem readsAtom_list {elements : List Expr} (h : ∀ e ∈ elements, e.ReadsAt 0) :
    (Expr.list elements).ReadsAtom := by
  intro n rest hn
  simp only [tokens, callsPerToken, List.length_cons, List.length_append, List.length_nil] at hn
  obtain ⟨n, rfl⟩ : ∃ n', n = n' + 1 := ⟨n - 1, by omega⟩
  have helements : sequence? n .square (tokensAll elements ++ .right .square :: rest) =
      some (phrases elements, rest) := by
    refine sequence?_tokensAll h ?_
    simp only [callsPerToken]
    omega
  simp [tokens, atom?, helements, phrase]

/-- The name in front of a bracket, with what follows it. -/
theorem primary?_name {name : String} (hname : IsName name) (n : Nat) (rest : List Token) :
    primary? (n + 2) (.name name :: rest) = trailers? (n + 1) (.name name) rest := by
  simp [primary?, atom?_name, named?_of_isName hname]

theorem readsPrimary_call {callee : String} {arguments : List Expr} (hcallee : IsName callee)
    (h : ∀ e ∈ arguments, e.ReadsAt 0) : (Expr.call callee arguments).ReadsPrimary := by
  intro n rest hrest hn
  simp only [tokens, callsPerToken, List.length_cons, List.length_append, List.length_nil] at hn
  obtain ⟨n, rfl⟩ : ∃ n', n = n' + 3 := ⟨n - 3, by omega⟩
  have harguments : sequence? (n + 1) .round (tokensAll arguments ++ .right .round :: rest) =
      some (phrases arguments, rest) := by
    refine sequence?_tokensAll h ?_
    simp only [callsPerToken]
    omega
  have htokens : (Expr.call callee arguments).tokens ++ rest =
      .name callee :: .left .round :: (tokensAll arguments ++ .right .round :: rest) := by
    simp [tokens]
  rw [htokens, primary?_name hcallee, trailers?_call harguments, trailers?_of_stops hrest, phrase]

theorem readsPrimary_subscript {base : String} {position : Expr} (hbase : IsName base)
    (h : position.ReadsAt 0) : (Expr.subscript base position).ReadsPrimary := by
  intro n rest hrest hn
  simp only [tokens, callsPerToken, List.length_cons, List.length_append, List.length_nil] at hn
  obtain ⟨n, rfl⟩ : ∃ n', n = n' + 3 := ⟨n - 3, by omega⟩
  have hposition : expression? (n + 1) 0 (position.tokens ++ .right .square :: rest) =
      some (position.phrase, .right .square :: rest) := by
    refine h trivial ?_
    simp only [callsPerToken]
    omega
  have htokens : (Expr.subscript base position).tokens ++ rest =
      .name base :: .left .square :: (position.tokens ++ .right .square :: rest) := by
    simp [tokens]
  rw [htokens, primary?_name hbase, trailers?_subscript hposition, trailers?_of_stops hrest, phrase]

/-! ### Operators -/

theorem tokens_binary_append (op : BinOp) (lhs rhs : Expr) (rest : List Token) :
    (Expr.binary op lhs rhs).tokens ++ rest =
      lhs.tokens ++ .op op :: (rhs.tokens ++ rest) := by
  simp [tokens]

theorem readsAt_comparison {op : BinOp} {lhs rhs : Expr} (hop : Script.level op = 0)
    (hlhs : lhs.ReadsAt 1) (hrhs : rhs.ReadsAt 1) : (Expr.binary op lhs rhs).ReadsAt 0 := by
  intro n rest hrest hn
  simp only [tokens, callsPerToken, List.length_cons, List.length_append] at hn
  obtain ⟨n, rfl⟩ : ∃ n', n = n' + 2 := ⟨n - 2, by omega⟩
  have hleft : expression? (n + 1) 1 (lhs.tokens ++ .op op :: (rhs.tokens ++ rest)) =
      some (lhs.phrase, .op op :: (rhs.tokens ++ rest)) := by
    refine hlhs (by simp [Stops, hop]) ?_
    simp only [callsPerToken]
    omega
  have hright : expression? n 1 (rhs.tokens ++ rest) = some (rhs.phrase, rest) := by
    refine hrhs (hrest.mono (Nat.zero_le 1)) ?_
    simp only [callsPerToken]
    omega
  rw [tokens_binary_append, expression?_operators (by decide) hleft, operators?_op hop hright,
    if_pos rfl, phrase]

/-- The tokens of an expression are read at a level as the first operand of what may go on. -/
def ReadsChain (l : Nat) (e : Expr) : Prop :=
  ∀ ⦃n k : Nat⦄ ⦃rest : List Token⦄, Stops (l + 1) rest →
    callsPerToken * e.tokens.length + k ≤ n + l + 1 →
    ∃ n', k < n' ∧ expression? n l (e.tokens ++ rest) = operators? n' l e.phrase rest

theorem ReadsChain.readsAt {l : Nat} {e : Expr} (h : e.ReadsChain l) : e.ReadsAt l := by
  intro n rest hrest hn
  have hfuel : callsPerToken * e.tokens.length + 0 ≤ n + l + 1 := hn
  obtain ⟨n', hn', hchain⟩ := h (hrest.mono (Nat.le_succ l)) hfuel
  obtain ⟨n', rfl⟩ := Nat.exists_eq_add_one.mpr hn'
  rw [hchain]
  exact operators?_of_stops hrest

/-- An operand that binds tighter is all there is of the level so far. -/
theorem ReadsAt.readsChain {l : Nat} {e : Expr} (h : e.ReadsAt (l + 1)) (hl : l < 3) :
    e.ReadsChain l := by
  intro n k rest hrest hn
  have hpos := e.length_tokens_pos
  simp only [callsPerToken] at hn
  obtain ⟨n, rfl⟩ : ∃ n', n = n' + 1 := ⟨n - 1, by omega⟩
  have hfirst : expression? n (l + 1) (e.tokens ++ rest) = some (e.phrase, rest) := by
    refine h hrest ?_
    simp only [callsPerToken]
    omega
  exact ⟨n, by omega, expression?_operators hl hfirst⟩

/-- A sum or a product goes on with what its left operand starts. -/
theorem readsChain_binary {l : Nat} {op : BinOp} {lhs rhs : Expr} (hop : Script.level op = l)
    (hl : l ≠ 0) (hlhs : lhs.ReadsChain l) (hrhs : rhs.ReadsAt (l + 1)) :
    (Expr.binary op lhs rhs).ReadsChain l := by
  intro n k rest hrest hn
  simp only [tokens, callsPerToken, List.length_cons, List.length_append] at hn
  -- The operator is looser than the right operand may be, so the left operand ends before it.
  have hstops : Stops (l + 1) (.op op :: (rhs.tokens ++ rest)) := by
    simp [Stops, hop]
  -- The left operand leaves enough fuel for the operator and the right operand.
  have hfuel : callsPerToken * lhs.tokens.length + (callsPerToken * rhs.tokens.length + k + 1) ≤
      n + l + 1 := by
    simp only [callsPerToken]
    omega
  obtain ⟨n', hn', hchain⟩ := hlhs hstops hfuel
  simp only [callsPerToken] at hn'
  obtain ⟨n', rfl⟩ : ∃ m, n' = m + 1 := ⟨n' - 1, by omega⟩
  have hright : expression? n' (l + 1) (rhs.tokens ++ rest) = some (rhs.phrase, rest) := by
    refine hrhs hrest ?_
    simp only [callsPerToken]
    omega
  refine ⟨n', by omega, ?_⟩
  rw [tokens_binary_append, hchain, operators?_op hop hright, if_neg hl, phrase]

/-! ### All expressions -/

/-- The tokens of an expression are read at every level where it may stand, and go on with every sum
and product where it may be the first operand. -/
structure Reads (e : Expr) : Prop where
  readsAt {l : Nat} (h : l ≤ e.level) (hl : l ≤ 3) : e.ReadsAt l
  readsChain {l : Nat} (h : l ≤ e.level) (hl : l < 3) (hpos : l ≠ 0) : e.ReadsChain l

theorem reads_of_readsAt_three {e : Expr} (h : e.ReadsAt 3) : e.Reads where
  readsAt _ hl := h.looser (Nat.le_refl 3) hl
  readsChain _ hl _ := (h.looser (Nat.le_refl 3) hl).readsChain hl

theorem ReadsPrimary.reads {e : Expr} (h : e.ReadsPrimary)
    (hhead : e.tokens.head? ≠ some (.op .sub)) : e.Reads :=
  reads_of_readsAt_three (h.readsAt hhead)

theorem reads_binary {op : BinOp} {lhs rhs : Expr} (hlhs : lhs.Reads) (hrhs : rhs.Reads)
    (hleft : max 1 (Script.level op) ≤ lhs.level) (hright : Script.level op < rhs.level) :
    (Expr.binary op lhs rhs).Reads := by
  have hop := level_lt_three op
  have hchain : Script.level op ≠ 0 → (Expr.binary op lhs rhs).ReadsChain (Script.level op) :=
    fun hpos => readsChain_binary rfl hpos (hlhs.readsChain (by omega) hop hpos)
      (hrhs.readsAt hright hop)
  have hown : (Expr.binary op lhs rhs).ReadsAt (Script.level op) := by
    by_cases hzero : Script.level op = 0
    · rw [hzero] at hleft hright ⊢
      exact readsAt_comparison hzero (hlhs.readsAt hleft (by decide))
        (hrhs.readsAt hright (by decide))
    · exact (hchain hzero).readsAt
  refine ⟨fun h _ => hown.looser hop.le h, fun {l} h hl hpos => ?_⟩
  -- Below its own level the expression is an operand, at its own level it goes on.
  rcases Nat.lt_or_eq_of_le (show l ≤ Script.level op from h) with hlt | rfl
  · exact (hown.looser hop.le hlt).readsChain hl
  · exact hchain hpos

theorem Reads.readsAt_zero {e : Expr} (h : e.Reads) : e.ReadsAt 0 :=
  h.readsAt (Nat.zero_le _) (by decide)

theorem Grouped.reads {e : Expr} (h : e.Grouped) : e.Reads := by
  induction h with
  -- Atoms are primaries, and a primary can be read at every level.
  | int value => exact (readsAtom_int value).readsPrimary.reads (by simp [tokens])
  | @float bits _ => exact (readsAtom_float bits).readsPrimary.reads (by simp [tokens])
  | bool value =>
    exact (readsAtom_bool value).readsPrimary.reads (by cases value <;> simp [tokens])
  | str value => exact (readsAtom_str value).readsPrimary.reads (by simp [tokens])
  | name h => exact (readsAtom_name h).readsPrimary.reads (by simp [tokens])
  | call hcallee _ ih =>
    exact (readsPrimary_call hcallee fun e he => (ih e he).readsAt_zero).reads (by simp [tokens])
  | subscript hbase _ ih =>
    exact (readsPrimary_subscript hbase ih.readsAt_zero).reads (by simp [tokens])
  | paren _ ih => exact (readsAtom_paren ih.readsAt_zero).readsPrimary.reads (by simp [tokens])
  | negate _ htight ih =>
    -- A sign binds tighter than every operator, so its operand is read at the level of signs.
    exact reads_of_readsAt_three (readsAt_negate (ih.readsAt htight (Nat.le_refl 3)))
  | binary _ _ hleft hright ihlhs ihrhs => exact reads_binary ihlhs ihrhs hleft hright
  | list _ ih =>
    exact (readsAtom_list fun e he => (ih e he).readsAt_zero).readsPrimary.reads (by simp [tokens])

/-- The tokens of an expression with enough parentheses are read completely, as its phrase. -/
theorem Grouped.phrase?_tokens {e : Expr} (h : e.Grouped) : phrase? e.tokens = some e.phrase := by
  have hread : expression? (callsPerToken * e.tokens.length) 0 (e.tokens ++ []) =
      some (e.phrase, []) := h.reads.readsAt_zero trivial (Nat.le_succ _)
  rw [List.append_nil] at hread
  simp [phrase?, hread]

end Expr

end Primer.Script
