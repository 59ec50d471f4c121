import Primer.Proofs.Script.Grouping
import Primer.Proofs.Typing.Agreement

/-!
# The size of a fresh array in a script

A fresh array `new T[n]` is written as `[0] * n`, without the brackets that hold the size together
in the program. So the text of the size is open to the operator in front of it: the list is repeated
by the first operand of the size only, and the rest of the size goes on from there.

To say what the text of any such expression is read as, `Script.Expr.join` puts two grouped
expressions and an operator together in the way a reader groups their text. Every expression that a
parser builds has a grouped expression with the same text (`Expr.Nested.exists_groupedAs`), also if
it has fresh arrays in it. Then the size is repeated as a whole exactly if it stands alone as an
operand (`Program.fresh_array_reads`).
-/

namespace Primer

/-! ## Floats without their sign -/

namespace Decimal.Double

/-- The same number without its sign. -/
def magnitude : Double → Double
  | .notANumber => .notANumber
  | .infinite _ => .infinite false
  | .zero _ => .zero false
  | .finite _ value => .finite false value

/-- The bits without the first one, which is that of the sign. -/
def clearSign (bits : UInt64) : UInt64 :=
  UInt64.ofNat (bits.toNat % Nat.pow 2 63)

theorem ofBits_clearSign (bits : UInt64) : ofBits (clearSign bits) = (ofBits bits).magnitude := by
  have hpow63 : Nat.pow 2 63 = 9223372036854775808 := rfl
  have hpow52 : Nat.pow 2 52 = 4503599627370496 := rfl
  have hpow11 : Nat.pow 2 11 = 2048 := rfl
  have hbits : (clearSign bits).toNat = bits.toNat % 9223372036854775808 := by
    rw [clearSign, hpow63, UInt64.toNat_ofNat']
    exact Nat.mod_eq_of_lt (by omega)
  have hsign : (bits.toNat % 9223372036854775808 / 9223372036854775808 == 1) = false := by
    rw [beq_eq_false_iff_ne]
    omega
  have hexponent : bits.toNat % 9223372036854775808 / 4503599627370496 % 2048 =
      bits.toNat / 4503599627370496 % 2048 := by omega
  have hfraction : bits.toNat % 9223372036854775808 % 4503599627370496 =
      bits.toNat % 4503599627370496 := by omega
  simp only [ofBits, hbits, hpow63, hpow52, hpow11, hsign, hexponent, hfraction]
  split_ifs <;> rfl

end Decimal.Double

namespace Script

/-- A number is written as its magnitude with the sign in front. -/
theorem floatText_clearSign {bits : UInt64} {negative : Bool}
    (h : Decimal.Double.ofBits bits = .zero negative ∨
      ∃ b, Decimal.Double.ofBits bits = .finite negative b) :
    isUnsigned (Decimal.Double.clearSign bits) = true ∧
      floatText bits = signed negative (floatText (Decimal.Double.clearSign bits)) := by
  have hclear := Decimal.Double.ofBits_clearSign bits
  rcases h with h | ⟨b, h⟩
  all_goals
    rw [h, Decimal.Double.magnitude] at hclear
    exact ⟨by simp [isUnsigned, hclear], by simp [floatText, h, hclear, signed]⟩

/-! ## Joining grouped expressions -/

namespace Expr

theorem three_le_level_of_ne_binary {e : Expr} (h : ∀ op lhs rhs, e ≠ .binary op lhs rhs) :
    3 ≤ e.level := by
  cases e with
  | binary op lhs rhs => exact absurd rfl (h op lhs rhs)
  | _ => simp [level]

/-- An expression with an operator and an operand behind it, grouped as a reader groups them: the
operand belongs to the rightmost part that does not bind tighter than the operator. -/
def extend (e : Expr) (op : BinOp) (operand : Expr) : Expr :=
  match e with
  | .binary op' lhs rhs =>
    if Script.level op' < Script.level op then .binary op' lhs (rhs.extend op operand)
    else .binary op (.binary op' lhs rhs) operand
  | e => .binary op e operand

/-- Two expressions with an operator between them, grouped as a reader groups their text. -/
def join (e : Expr) (op : BinOp) : Expr → Expr
  | .binary op' lhs rhs => (e.join op lhs).extend op' rhs
  | operand => e.extend op operand

/-- An expression with a minus sign in front, which belongs to the first operand. -/
def minus : Expr → Expr
  | .binary op lhs rhs => .binary op lhs.minus rhs
  | e => .negate e

theorem text_extend (e : Expr) (op : BinOp) (operand : Expr) :
    (e.extend op operand).text = e.text ++ " " ++ op.text ++ " " ++ operand.text := by
  fun_induction extend e op operand with
  | case1 op' lhs rhs _ ih => simp only [text, ih, String.append_assoc]
  | case2 => rw [text]
  | case3 => rw [text]

theorem level_extend (e : Expr) (op : BinOp) (operand : Expr) :
    (e.extend op operand).level = min e.level (Script.level op) := by
  fun_induction extend e op operand with
  | case1 op' lhs rhs hlt _ => exact (Nat.min_eq_left (Nat.le_of_lt hlt)).symm
  | case2 op' lhs rhs hle => exact (Nat.min_eq_right (Nat.not_lt.mp hle)).symm
  | case3 e hne =>
    have he := three_le_level_of_ne_binary hne
    have hop := level_lt_three op
    change Script.level op = min e.level (Script.level op)
    omega

theorem extend_of_le {op : BinOp} {operand e : Expr} (h : Script.level op ≤ e.level) :
    e.extend op operand = .binary op e operand := by
  cases e with
  | binary op' lhs rhs => exact if_neg (Nat.not_lt.mpr h)
  | _ => rfl

/-- An operand can follow if it binds tighter than its operator. Of two comparisons the first one
would have to be in parentheses. -/
theorem Grouped.extend {op : BinOp} {operand e : Expr} (he : e.Grouped) (hoperand : operand.Grouped)
    (hop : Script.level op < operand.level) (hcomparison : 1 ≤ max e.level (Script.level op)) :
    (e.extend op operand).Grouped := by
  fun_induction Expr.extend e op operand with
  | case1 op' lhs rhs hlt ih =>
    -- The operator binds tighter than the one on top, so it goes on in the right operand.
    cases he with
    | binary hlhs hrhs hleft hright =>
      refine .binary hlhs (ih hrhs (by omega)) hleft ?_
      rw [level_extend]
      exact Nat.lt_min.mpr ⟨hright, hlt⟩
  | case2 op' lhs rhs hle =>
    refine .binary he hoperand ?_ hop
    change 1 ≤ max (Script.level op') _ at hcomparison
    change _ ≤ Script.level op'
    omega
  | case3 e hne =>
    have hlevel := three_le_level_of_ne_binary hne
    have hlt := level_lt_three op
    exact .binary he hoperand (by omega) hop

theorem text_join (e : Expr) (op : BinOp) (e' : Expr) :
    (e.join op e').text = e.text ++ " " ++ op.text ++ " " ++ e'.text := by
  fun_induction join e op e' with
  | case1 op' lhs rhs ih => simp only [text_extend, ih, text, String.append_assoc]
  | case2 => rw [text_extend]

theorem Grouped.level_join {e' : Expr} (h : e'.Grouped) (e : Expr) (op : BinOp) :
    (e.join op e').level = min (min e.level (Script.level op)) e'.level := by
  fun_induction join e op e' with
  | case1 op' lhs rhs ih =>
    cases h with
    | binary hlhs _ hleft _ =>
      -- The left operand binds at least as tight as its operator, so it does not count.
      rw [level_extend, ih hlhs]
      change min (min _ lhs.level) (Script.level op') = min _ (Script.level op')
      omega
  | case2 e' hne =>
    have hlevel := three_le_level_of_ne_binary hne
    have hop := level_lt_three op
    rw [level_extend]
    omega

theorem Grouped.join {op : BinOp} {e e' : Expr} (he : e.Grouped) (he' : e'.Grouped)
    (hlevel : 1 ≤ e.level) (hlevel' : 1 ≤ e'.level) : (e.join op e').Grouped := by
  -- The first operand joins in first, and then one operator comes after the other.
  fun_induction Expr.join e op e' with
  | case1 op' lhs rhs ih =>
    change 1 ≤ Script.level op' at hlevel'
    cases he' with
    | binary hlhs hrhs hleft hright =>
      exact (ih hlhs (by omega)).extend hrhs hright (by omega)
  | case2 e' hne =>
    have htight := three_le_level_of_ne_binary hne
    have hop := level_lt_three op
    exact he.extend he' (by omega) (by omega)

/-- The zero that is repeated is an operand. -/
theorem grouped_zeros (element : String) : (Expr.list [zeroOf element]).Grouped := by
  refine .list (List.forall_mem_singleton.mpr ?_)
  unfold zeroOf
  split_ifs
  · exact .float (by decide)
  · exact .int 0

theorem text_minus (e : Expr) : e.minus.text = "-" ++ e.text := by
  fun_induction minus e with
  | case1 op lhs rhs ih => simp only [text, ih, String.append_assoc]
  | case2 => rw [text]

theorem level_minus (e : Expr) : e.minus.level = min 3 e.level := by
  fun_induction minus e with
  | case1 op lhs rhs ih =>
    have hop := level_lt_three op
    exact (Nat.min_eq_right (Nat.le_of_lt hop)).symm
  | case2 e hne => exact (Nat.min_eq_left (three_le_level_of_ne_binary hne)).symm

theorem Grouped.minus {e : Expr} (h : e.Grouped) : e.minus.Grouped := by
  fun_induction Expr.minus e with
  | case1 op lhs rhs ih =>
    cases h with
    | binary hlhs hrhs hleft hright =>
      have hop := level_lt_three op
      refine .binary (ih hlhs) hrhs ?_ hright
      rw [level_minus]
      omega
  | case2 e hne => exact .negate h (three_le_level_of_ne_binary hne)

end Expr

end Script

/-! ## Expressions that a parser builds -/

namespace Expr

variable {L : Type}

/-- Expressions as a parser that knows how tight operators bind builds them: operands are in
parentheses where they bind looser than their place, and names are identifiers. A fresh array, whose
size stands between brackets, is an operand. -/
inductive Nested : Expr L → Prop where
  | int {p : L} {value : Int} : Nested (.int p value)
  | float {p : L} {bits : UInt64} : Nested (.float p bits)
  | bool {p : L} {value : Bool} : Nested (.bool p value)
  | char {p : L} {value : Char} : Nested (.char p value)
  | str {p : L} {value : String} : Nested (.str p value)
  | read {p : L} {name : Name L} (hname : Script.isIdentifier name.text = true) :
      Nested (.read p name)
  | call {p : L} {callee : Name L} {arguments : List (Expr L)}
      (hcallee : Script.isIdentifier callee.text = true)
      (harguments : ∀ e ∈ arguments, Nested e) : Nested (.call p callee arguments)
  | index {p : L} {base : Name L} {position : Expr L}
      (hbase : Script.isIdentifier base.text = true) (hposition : Nested position) :
      Nested (.index p base position)
  | length {p : L} {operand : Expr L} (hoperand : Nested operand) : Nested (.length p operand)
  | paren {p : L} {operand : Expr L} (hoperand : Nested operand) : Nested (.paren p operand)
  | negate {p : L} {operand : Expr L} (hoperand : Nested operand)
      (htight : 3 ≤ operand.tightness) : Nested (.negate p operand)
  | binary {p : L} {op : BinOp} {lhs rhs : Expr L} (hlhs : Nested lhs) (hrhs : Nested rhs)
      (hleft : max 1 (Script.level op) ≤ lhs.tightness)
      (hright : Script.level op < rhs.tightness) : Nested (.binary p op lhs rhs)
  | array {p : L} {elements : List (Expr L)} (helements : ∀ e ∈ elements, Nested e) :
      Nested (.array p elements)
  | newArray {p : L} {element : Name L} {size : Expr L} (hsize : Nested size) :
      Nested (.newArray p element size)

/-- Whether the text of a number stays together next to an operator. A quotient does, because it is
written as a call; a sum, a difference or a product does not, nor does a fresh array, which is
written as a product, nor a sign in front of one. -/
def standsAlone : Expr L → Bool
  | .binary _ op _ _ => op = .div
  | .negate _ operand => operand.standsAlone
  | .newArray .. => false
  | _ => true

/-- A grouped expression has the text of an expression of the program. -/
structure GroupedAs (t : Table) (s : ScopeId) (e : Expr L) (g : Script.Expr) : Prop where
  grouped : g.Grouped
  text_eq : g.text = (e.toScript t s).text
  /-- Only a comparison is read as one. -/
  level_pos : 1 ≤ e.tightness → 1 ≤ g.level
  /-- Whether it is read as an operand. -/
  operand_iff : e.HasType t s .int → (3 ≤ g.level ↔ e.standsAlone = true)

section

variable {t : Table} {s : ScopeId}

/-- Whatever is written as an operand. -/
theorem groupedAs_operand {e : Expr L} {g : Script.Expr} (hg : g.Grouped)
    (htext : g.text = (e.toScript t s).text) (hlevel : 3 ≤ g.level)
    (halone : e.standsAlone = true) : e.GroupedAs t s g where
  grouped := hg
  text_eq := htext
  level_pos _ := Nat.le_trans (by decide) hlevel
  operand_iff _ := iff_of_true hlevel halone

theorem exists_groupedAs_int (p : L) (value : Int) : ∃ g, (Expr.int p value).GroupedAs t s g := by
  cases value with
  | ofNat n => exact ⟨_, groupedAs_operand (.int n) rfl (by simp [Script.Expr.level]) rfl⟩
  | negSucc n =>
    exact ⟨.negate (.int (n + 1 : Nat)), groupedAs_operand
      (.negate (.int _) (by simp [Script.Expr.level])) rfl (by simp [Script.Expr.level]) rfl⟩

/-- A number with its sign, from one without. -/
theorem groupedAs_signed {e : Expr L} {g : Script.Expr} (hg : g.Grouped) (hlevel : 3 ≤ g.level)
    (negative : Bool) (htext : Script.signed negative g.text = (e.toScript t s).text)
    (halone : e.standsAlone = true) : ∃ g, e.GroupedAs t s g := by
  cases negative with
  | false => exact ⟨g, groupedAs_operand hg htext hlevel halone⟩
  | true =>
    exact ⟨.negate g, groupedAs_operand (.negate hg hlevel) htext (by simp [Script.Expr.level])
      halone⟩

theorem exists_groupedAs_float (p : L) (bits : UInt64) :
    ∃ g, (Expr.float p bits).GroupedAs t s g := by
  have hword : ∀ word : String, Script.IsName word → (Script.Expr.name word).Grouped :=
    fun _ => .name
  cases hbits : Decimal.Double.ofBits bits with
  -- What is no decimal is written as a word, which is read as a name.
  | notANumber =>
    refine groupedAs_signed (hword "NaN" ⟨by decide, by decide⟩) (by simp [Script.Expr.level]) false
      ?_ rfl
    simp [Script.signed, Script.Expr.text, toScript, Script.floatText, hbits]
  | infinite negative =>
    refine groupedAs_signed (hword "inf" ⟨by decide, by decide⟩) (by simp [Script.Expr.level])
      negative ?_ rfl
    simp [Script.Expr.text, toScript, Script.floatText, hbits]
  | zero negative =>
    obtain ⟨hunsigned, htext⟩ := Script.floatText_clearSign (.inl hbits)
    exact groupedAs_signed (.float hunsigned) (by simp [Script.Expr.level]) negative
      (by simp [Script.Expr.text, toScript, htext]) rfl
  | finite negative b =>
    obtain ⟨hunsigned, htext⟩ := Script.floatText_clearSign (.inr ⟨b, hbits⟩)
    exact groupedAs_signed (.float hunsigned) (by simp [Script.Expr.level]) negative
      (by simp [Script.Expr.text, toScript, htext]) rfl

/-- Grouped expressions with the texts of several expressions. -/
theorem exists_groupedAs_all {es : List (Expr L)} (h : ∀ e ∈ es, ∃ g, e.GroupedAs t s g) :
    ∃ gs : List Script.Expr, (∀ g ∈ gs, g.Grouped) ∧
      Script.Expr.texts gs = Script.Expr.texts (toScriptAll t s es) := by
  induction es with
  | nil => exact ⟨[], fun _ hg => absurd hg List.not_mem_nil, rfl⟩
  | cons e es ih =>
    obtain ⟨g, hg⟩ := h e List.mem_cons_self
    obtain ⟨gs, hgs, htexts⟩ := ih fun e he => h e (List.mem_cons_of_mem _ he)
    refine ⟨g :: gs, List.forall_mem_cons.mpr ⟨hg.grouped, hgs⟩, ?_⟩
    simp only [Script.Expr.texts, toScriptAll, hg.text_eq, htexts]

/-- A number is no comparison. -/
theorem HasType.tightness_pos {e : Expr L} (h : e.HasType t s .int) : 1 ≤ e.tightness := by
  cases e with
  | binary p op lhs rhs =>
    cases h with
    | arithmetic hop _ _ _ => cases op <;> simp_all [BinOp.isArithmetic, tightness, Script.level]
  | _ => simp [tightness]

/-- A fresh array is read as a product, with the first operand of its size as a factor. -/
theorem GroupedAs.newArray {size : Expr L} {g : Script.Expr} (h : size.GroupedAs t s g)
    (hsize : size.HasType t s .int) (p : L) (element : Name L) :
    (Expr.newArray p element size).GroupedAs t s
      ((Script.Expr.list [Script.Expr.zeroOf element.text]).join .mul g) := by
  -- The size is a number, so no comparison stands in it unparenthesized.
  have hlevel : 1 ≤ g.level := h.level_pos hsize.tightness_pos
  have hjoin := h.grouped.level_join (.list [Script.Expr.zeroOf element.text]) .mul
  have hlist : (Script.Expr.list [Script.Expr.zeroOf element.text]).level = 4 := rfl
  have hmul : Script.level .mul = 2 := rfl
  constructor
  · exact (Script.Expr.grouped_zeros element.text).join h.grouped (by omega) hlevel
  · rw [Script.Expr.text_join, h.text_eq]
    rfl
  · intro _
    omega
  -- It is read as a product or a sum, and never as a single operand.
  · intro _
    refine iff_of_false ?_ Bool.false_ne_true
    omega

theorem GroupedAs.negate {operand : Expr L} {g : Script.Expr} (h : operand.GroupedAs t s g)
    (htight : 3 ≤ operand.tightness) (p : L) :
    (Expr.negate p operand).GroupedAs t s g.minus := by
  have hlevel : 1 ≤ g.level := h.level_pos (Nat.le_trans (by decide) htight)
  have hminus := g.level_minus
  constructor
  · exact h.grouped.minus
  · rw [Script.Expr.text_minus, h.text_eq]
    rfl
  · intro _
    omega
  · intro hint
    cases hint with
    | negate hoperand _ =>
      rw [hminus, standsAlone, ← h.operand_iff hoperand]
      omega

/-- Two operands with an operator between them. The quotient of integers is in a call. -/
theorem GroupedAs.binary {op : BinOp} {lhs rhs : Expr L} {gl gr : Script.Expr}
    (hlhs : lhs.GroupedAs t s gl) (hrhs : rhs.GroupedAs t s gr)
    (hleft : max 1 (Script.level op) ≤ lhs.tightness) (hright : Script.level op < rhs.tightness)
    (p : L) : ∃ g, (Expr.binary p op lhs rhs).GroupedAs t s g := by
  have hl : 1 ≤ gl.level := hlhs.level_pos (by omega)
  have hr : 1 ≤ gr.level := hrhs.level_pos (by omega)
  have hgrouped : (gl.join op gr).Grouped := hlhs.grouped.join hrhs.grouped hl hr
  have hjoin := hrhs.grouped.level_join gl op
  have htext := Script.Expr.text_join gl op gr
  rw [hlhs.text_eq, hrhs.text_eq] at htext
  by_cases hquotient : op = .div ∧ lhs.typeIn t s = .int
  · obtain ⟨rfl, hint⟩ := hquotient
    refine ⟨.call "int" [gl.join .div gr], groupedAs_operand ?_ ?_ ?_ ?_⟩
    · exact .call ⟨by decide, by decide⟩ (by simpa using hgrouped)
    · simp [toScript, hint, Script.Expr.wholeQuotient, Script.Expr.text, Script.Expr.texts, htext]
    · simp [Script.Expr.level]
    · rfl
  · refine ⟨gl.join op gr, hgrouped, ?_, ?_, ?_⟩
    · rw [toScript, if_neg hquotient, htext]
      rfl
    · intro hop
      change 1 ≤ Script.level op at hop
      omega
    · intro hint
      -- A quotient would be one of integers.
      have hdiv : op ≠ .div := by
        rintro rfl
        cases hint with
        | arithmetic _ hoperand _ _ => exact hquotient ⟨rfl, (hasType_iff.mp hoperand).1⟩
      have hop := Script.level_lt_three op
      refine iff_of_false (by omega) ?_
      simpa [standsAlone] using hdiv

/-- Every expression that a parser builds and that has a type has the text of a grouped one. -/
theorem Nested.exists_groupedAs {e : Expr L} (h : e.Nested) (htyped : ∃ τ, e.HasType t s τ) :
    ∃ g, e.GroupedAs t s g := by
  -- An operand is as tight as an atom, which is more than a sign asks for.
  have hlevel : ∀ {g : Script.Expr}, g.level = 4 → 3 ≤ g.level := fun h => h ▸ by decide
  induction h with
  | int => exact exists_groupedAs_int _ _
  | float => exact exists_groupedAs_float _ _
  | bool => exact ⟨_, groupedAs_operand (.bool _) rfl (hlevel rfl) rfl⟩
  | char => exact ⟨_, groupedAs_operand (.str _) rfl (hlevel rfl) rfl⟩
  | str => exact ⟨_, groupedAs_operand (.str _) rfl (hlevel rfl) rfl⟩
  | read hname => exact ⟨_, groupedAs_operand (.name (isName_safeName hname)) rfl (hlevel rfl) rfl⟩
  | call hcallee _ ih =>
    obtain ⟨τ, hτ⟩ := htyped
    obtain ⟨gs, hgs, htexts⟩ := exists_groupedAs_all fun e he => ih e he (hτ.part he)
    exact ⟨_, groupedAs_operand (.call (isName_safeName hcallee) hgs)
      (by simp only [Script.Expr.text, toScript, htexts]) (hlevel rfl) rfl⟩
  | index hbase _ ih =>
    obtain ⟨τ, hτ⟩ := htyped
    obtain ⟨g, hg⟩ := ih (hτ.part (List.mem_singleton_self _))
    exact ⟨_, groupedAs_operand (.subscript (isName_safeName hbase) hg.grouped)
      (by simp only [Script.Expr.text, toScript, hg.text_eq]) (hlevel rfl) rfl⟩
  | length _ ih =>
    obtain ⟨τ, hτ⟩ := htyped
    obtain ⟨g, hg⟩ := ih (hτ.part (List.mem_singleton_self _))
    have hlen : (Script.Expr.call "len" [g]).Grouped :=
      .call ⟨by decide, by decide⟩ (by simpa using hg.grouped)
    exact ⟨_, groupedAs_operand hlen
      (by simp only [Script.Expr.text, Script.Expr.texts, toScript, hg.text_eq]) (hlevel rfl) rfl⟩
  | paren _ ih =>
    obtain ⟨τ, hτ⟩ := htyped
    obtain ⟨g, hg⟩ := ih (hτ.part (List.mem_singleton_self _))
    exact ⟨_, groupedAs_operand (.paren hg.grouped)
      (by simp only [Script.Expr.text, toScript, hg.text_eq]) (hlevel rfl) rfl⟩
  | negate _ htight ih =>
    obtain ⟨τ, hτ⟩ := htyped
    obtain ⟨g, hg⟩ := ih (hτ.part (List.mem_singleton_self _))
    exact ⟨_, hg.negate htight _⟩
  | binary _ _ hleft hright ihlhs ihrhs =>
    obtain ⟨τ, hτ⟩ := htyped
    obtain ⟨gl, hgl⟩ := ihlhs (hτ.part List.mem_cons_self)
    obtain ⟨gr, hgr⟩ := ihrhs (hτ.part (List.mem_cons_of_mem _ List.mem_cons_self))
    exact hgl.binary hgr hleft hright _
  | array _ ih =>
    obtain ⟨τ, hτ⟩ := htyped
    obtain ⟨gs, hgs, htexts⟩ := exists_groupedAs_all fun e he => ih e he (hτ.part he)
    exact ⟨_, groupedAs_operand (.list hgs) (by simp only [Script.Expr.text, toScript, htexts])
      (hlevel rfl) rfl⟩
  | newArray _ ih =>
    obtain ⟨τ, hτ⟩ := htyped
    -- The size is a part of its own kind: it has to be an integer.
    cases hτ with
    | newArray _ _ hsize =>
      obtain ⟨g, hg⟩ := ih ⟨_, hsize⟩
      exact ⟨_, hg.newArray hsize _ _⟩

end

end Expr

/-! ## What the text of a fresh array is read as -/

namespace Script

/-- A phrase with a factor in front, which belongs to the first operand. -/
def Phrase.withFactor : Phrase → Phrase → Phrase
  | .binary op lhs rhs, factor => .binary op (lhs.withFactor factor) rhs
  | x, factor => .binary .mul factor x

/-- The list that a fresh array repeats: a zero. -/
def Phrase.zero (element : String) : Phrase :=
  .list [if Ty.named? element = some .float then .float 0 else .int 0]

theorem Expr.phrase_zero (element : String) :
    (Expr.list [Expr.zeroOf element]).phrase = .zero element := by
  unfold Expr.zeroOf Phrase.zero
  split_ifs <;> rfl

/-- No operator binds tighter than a product, so the factor goes to the first operand. -/
theorem Expr.Grouped.phrase_join_mul {e g : Expr} (h : g.Grouped) (he : 3 ≤ e.level) :
    (e.join .mul g).phrase = g.phrase.withFactor e.phrase := by
  fun_induction Expr.join e .mul g with
  | case1 op lhs rhs ih =>
    cases h with
    | binary hlhs _ hleft _ =>
      have hop := level_lt_three op
      have hjoin : (e.join .mul lhs).level = min (min e.level 2) lhs.level := hlhs.level_join e .mul
      rw [extend_of_le (by omega), phrase, ih hlhs]
      rfl
  | case2 g hne =>
    have hmul : Script.level .mul ≤ e.level := Nat.le_trans (by decide) he
    rw [extend_of_le hmul]
    cases g with
    | binary op lhs rhs => exact absurd rfl (hne op lhs rhs)
    | _ => rfl

/-- The whole is a factor exactly if it is an operand. -/
theorem Expr.withFactor_phrase_eq_iff (g : Expr) (factor : Phrase) :
    g.phrase.withFactor factor = .binary .mul factor g.phrase ↔ 3 ≤ g.level := by
  cases g with
  | binary op lhs rhs =>
    refine iff_of_false (fun h => ?_) (Nat.not_le.mpr (level_lt_three op))
    -- The right operand would have itself in it.
    injection h with _ _ hrhs
    have hsize := congrArg sizeOf hrhs
    simp only [phrase, Phrase.binary.sizeOf_spec] at hsize
    omega
  | negate operand => exact iff_of_true rfl (Nat.le_refl 3)
  | _ => exact iff_of_true rfl (Nat.le_succ 3)

end Script

/-- In an accepted program, the text of a fresh array is read as the text of its size with the zero
as a factor in front. It is the whole size that is repeated exactly if the size stands alone. -/
theorem Program.fresh_array_reads {p : Program Location} {a : Analysis} (hp : p.Distinct)
    (ha : p.analyze = .ok a) (haccepted : a.isAccepted = true) {layers : List Layer} {k : Nat}
    {b : Block Location NodeId} (hb : p.HasBlock layers k b) :
    ∃ s, a.scopes.get? b.mark = some s ∧ ∀ st ∈ b.statements, ∀ whole ∈ st.expressions,
      ∀ place element size, (Expr.newArray place element size).OccursIn whole → size.Nested →
        ∃ x, Script.parse? (size.toScript a.table s).text = some x ∧
          Script.parse? ((Expr.newArray place element size).toScript a.table s).text =
            some (x.withFactor (.zero element.text)) ∧
          (x.withFactor (.zero element.text) = .binary .mul (.zero element.text) x ↔
            size.standsAlone = true) := by
  obtain ⟨arguments, returns, hwell⟩ := hb.wellTyped hp ha haccepted
  cases hwell with
  | @mk _ s _ hnode hsts =>
    refine ⟨s, hnode, fun st hst whole hwhole place element size hnew hnested => ?_⟩
    obtain ⟨τ, hτ⟩ := (hsts st hst).hasType hwhole
    obtain ⟨σ, hσ⟩ := hnew.hasType hτ
    cases hσ with
    | newArray _ _ hsize =>
      -- The size and the array are read as two grouped expressions, the second made of the first.
      obtain ⟨g, hg⟩ := hnested.exists_groupedAs ⟨_, hsize⟩
      have hfresh := hg.newArray hsize place element
      have hphrase := hg.grouped.phrase_join_mul
        (show 3 ≤ (Script.Expr.list [Script.Expr.zeroOf element.text]).level from Nat.le_succ 3)
      rw [Script.Expr.phrase_zero] at hphrase
      refine ⟨g.phrase, ?_, ?_, ?_⟩
      · rw [← hg.text_eq]
        exact hg.grouped.parse?_text
      · rw [← hfresh.text_eq, hfresh.grouped.parse?_text, hphrase]
      · rw [Script.Expr.withFactor_phrase_eq_iff]
        exact hg.operand_iff hsize

/-- `main { int[] a = new int[1 + 2 * 3]; float[] b = new float[-length(a) / 2]; }` -/
def Program.sizedArrays : Program Location :=
  let written (text : String) : Name (Option Location) := ⟨text, none⟩
  let product : Expr (Option Location) := .binary none .mul (.int none 2) (.int none 3)
  let length : Expr (Option Location) := .length none (.read none (written "a"))
  Program.ofDraft [.main ⟨none, none, .mk none
    [.declare none (written "int[]") (written "a") (some (.newArray none (written "int")
        (.binary none .add (.int none 1) product))),
      .declare none (written "float[]") (written "b") (some (.newArray none (written "float")
        (.binary none .div (.negate none length) (.int none 2))))]⟩]

/-- `1 + 2 * 3` -/
def Program.sizedArrays.sum : Expr Location :=
  .binary .unknown .add (.int .unknown 1)
    (.binary .unknown .mul (.int .unknown 2) (.int .unknown 3))

/-- `-length(a) / 2` -/
def Program.sizedArrays.quotient : Expr Location :=
  .binary .unknown .div (.negate .unknown (.length .unknown (.read .unknown ⟨"a", .unknown⟩)))
    (.int .unknown 2)

/-- Both directions: of the sum only the first operand is a factor, and of the quotient all is. -/
theorem Program.fresh_array_reads_sizedArrays :
    ∃ a s, Program.sizedArrays.analyze = .ok a ∧ a.isAccepted = true ∧
      (∃ x, Script.parse? (sizedArrays.sum.toScript a.table s).text = some x ∧
        Script.parse? "[0] * 1 + 2 * 3" = some (x.withFactor (.zero "int")) ∧
        x.withFactor (.zero "int") ≠ .binary .mul (.zero "int") x) ∧
      ∃ x, Script.parse? (sizedArrays.quotient.toScript a.table s).text = some x ∧
        Script.parse? "[0.0] * int(-len(a) / 2)" = some (.binary .mul (.zero "float") x) := by
  have hdistinct : Program.sizedArrays.Distinct := Program.distinct_ofDraft _ (by decide)
  obtain ⟨a, ha, haccepted, hscope, hsum, hquotient⟩ : ∃ a,
      Program.sizedArrays.analyze = .ok a ∧ a.isAccepted = true ∧
      a.scopes.get? ⟨1⟩ = some ⟨2⟩ ∧
      ((Expr.newArray .unknown ⟨"int", .unknown⟩ sizedArrays.sum).toScript a.table ⟨2⟩).text =
        "[0] * 1 + 2 * 3" ∧
      ((Expr.newArray .unknown ⟨"float", .unknown⟩ sizedArrays.quotient).toScript a.table
        ⟨2⟩).text = "[0.0] * int(-len(a) / 2)" :=
    ⟨_, rfl, rfl, rfl, rfl, rfl⟩
  -- Both sizes are parenthesized as the source needs it; only the second one is a single factor.
  have hnested : sizedArrays.sum.Nested :=
    .binary .int (.binary .int .int (by decide) (by decide)) (by decide) (by decide)
  have hnested' : sizedArrays.quotient.Nested :=
    .binary (.negate (.length (.read (by decide))) (by decide)) .int (by decide) (by decide)
  obtain ⟨s, hs, hreads⟩ := Program.fresh_array_reads hdistinct ha haccepted
    (.main (List.mem_singleton_self _))
  obtain rfl : s = ⟨2⟩ := Option.some.inj (hs.symm.trans hscope)
  obtain ⟨x, hx, hnew, hiff⟩ := hreads _ List.mem_cons_self _ (List.mem_singleton_self _)
    .unknown ⟨"int", .unknown⟩ sizedArrays.sum .here hnested
  obtain ⟨y, hy, hnew', hiff'⟩ := hreads _ (List.mem_cons_of_mem _ List.mem_cons_self) _
    (List.mem_singleton_self _) .unknown ⟨"float", .unknown⟩ sizedArrays.quotient .here hnested'
  rw [hsum] at hnew
  rw [hquotient, hiff'.mpr rfl] at hnew'
  exact ⟨a, ⟨2⟩, ha, haccepted, ⟨x, hx, hnew, fun h => absurd (hiff.mp h) (by decide)⟩, y, hy,
    hnew'⟩

/-- `main { int[] a = new int[1 + 2]; }` -/
def Program.sumSized : Program Location :=
  Program.ofDraft [.main ⟨none, none, .mk none
    [.declare none ⟨"int[]", none⟩ ⟨"a", none⟩ (some (.newArray none ⟨"int", none⟩
      (.binary none .add (.int none 1) (.int none 2))))]⟩]

/-- An array with the size of a sum is written so that its first operand alone is a factor. -/
theorem Program.fresh_array_takes_part_of_sum :
    ∃ a, Program.sumSized.analyze = .ok a ∧ a.isAccepted = true ∧
      a.scriptText Program.sumSized = .ok "a = [0] * 1 + 2\n" ∧
      Script.parse? "[0] * 1 + 2" =
        some (.binary .add (.binary .mul (.list [.int 0]) (.int 1)) (.int 2)) ∧
      ∀ x, Script.parse? "[0] * 1 + 2" ≠ some (.binary .mul (.list [.int 0]) x) := by
  obtain ⟨a, ha, haccepted, htext⟩ : ∃ a, Program.sumSized.analyze = .ok a ∧
      a.isAccepted = true ∧ a.scriptText Program.sumSized = .ok "a = [0] * 1 + 2\n" :=
    ⟨_, rfl, rfl, rfl⟩
  -- The text is the one of a sum, whose first operand is the repeated list.
  have hgrouped : (Script.Expr.binary .add
      (.binary .mul (.list [.int (0 : Nat)]) (.int (1 : Nat))) (.int (2 : Nat))).Grouped := by
    refine .binary (.binary (.list ?_) (.int 1) ?_ ?_) (.int 2) ?_ ?_
    · exact List.forall_mem_singleton.mpr (.int 0)
    all_goals decide
  have hparse : Script.parse? "[0] * 1 + 2" =
      some (.binary .add (.binary .mul (.list [.int 0]) (.int 1)) (.int 2)) := hgrouped.parse?_text
  refine ⟨a, ha, haccepted, htext, hparse, fun x h => ?_⟩
  rw [hparse] at h
  simp at h

end Primer
