import SequentCalculus.Expr
import SequentCalculus.Policy

/-!
# Truth and normal forms of expressions

A valuation gives the atoms their truth values by name, and every connective is read by its truth
table (`Expr.eval`).

In the opaque reading (`Expr.opaqueEval`) an equivalence has a value of its own, like an atom, and
its operands are not looked at.

The policy of a store says in which form negations, implications and equivalences are built.  On
expressions this is the function `Expr.normal`, which is given the two constants as they are
called in the store.  It takes an implication for a negation only after both operands have their
normal form, so that an operand that turns into the false constant counts.  Normal forms mean what
the expression means (`Expr.eval_normal`), whatever the policy.  In the opaque reading they do not,
since a policy decides which equivalences are the same.  But if one policy identifies whatever
another one does (`Expr.normal_normal`), every opaque reading of its normal forms is one of the
other's (`Expr.opaqueEval_normal`).
-/

namespace SequentCalculus

/-- The truth table of a binary connective. -/
def BinOp.eval : BinOp → Bool → Bool → Bool
  | .and, a, b => a && b
  | .or, a, b => a || b
  | .implies, a, b => !a || b
  | .iff, a, b => a == b

/-- The truth value of an expression when the atoms have the values that `v` gives to their
names. -/
def Expr.eval (v : String → Bool) : Expr → Bool
  | .falsum => false
  | .verum => true
  | .atom name => v name
  | .not a => !a.eval v
  | .binary op a b => op.eval (a.eval v) (b.eval v)

/-- The truth value of an expression when `leaf` gives the values of its atoms and of its
equivalences. -/
def Expr.opaqueEval (leaf : Expr → Bool) : Expr → Bool
  | .falsum => false
  | .verum => true
  | .atom name => leaf (.atom name)
  | .not a => !a.opaqueEval leaf
  | .binary op a b =>
    if op = .iff then leaf (.binary op a b) else op.eval (a.opaqueEval leaf) (b.opaqueEval leaf)

/-- Some expression on the left is false, or some expression on the right is true. -/
def SequentExpr.HoldsUnder (value : Expr → Bool) (e : SequentExpr) : Prop :=
  (∃ a ∈ e.left, value a = false) ∨ ∃ a ∈ e.right, value a = true

/-- Some expression on the left is false, or some expression on the right is true, when the atoms
have the values that `v` gives to their names. -/
def SequentExpr.Holds (v : String → Bool) (e : SequentExpr) : Prop :=
  (∃ a ∈ e.left, a.eval v = false) ∨ ∃ a ∈ e.right, a.eval v = true

namespace Expr

/-! ### Normal forms -/

/-- The negation of `a` in the form that the policy gives it. -/
def mkNot (policy : Policy) (bot a : Expr) : Expr :=
  match policy.negation with
  | .asImplication => .binary .implies a bot
  | .keep => .not a
  | .fromImplication => .not a

/-- The implication from `a` to `b` in the form that the policy gives it. -/
def mkImplies (policy : Policy) (bot a b : Expr) : Expr :=
  if policy.negation = .fromImplication ∧ b = bot then .not a else .binary .implies a b

/-- The equivalence of `a` and `b` in the form that the policy gives it. -/
def mkIff (policy : Policy) (bot a b : Expr) : Expr :=
  match policy.equivalence with
  | .keep => .binary .iff a b
  | .expand => .binary .and (mkImplies policy bot a b) (mkImplies policy bot b a)

/-- Two expressions joined by a connective, in the form that the policy gives it. -/
def mkBinary (policy : Policy) (bot : Expr) : BinOp → Expr → Expr → Expr
  | .and, a, b => .binary .and a b
  | .or, a, b => .binary .or a b
  | .implies, a, b => mkImplies policy bot a b
  | .iff, a, b => mkIff policy bot a b

/-- The form in which the policy builds an expression, when the constants are called `bot` and
`top`. -/
def normal (policy : Policy) (bot top : Expr) : Expr → Expr
  | .falsum => bot
  | .verum => top
  | .atom name => .atom name
  | .not a => mkNot policy bot (normal policy bot top a)
  | .binary op a b =>
    mkBinary policy bot op (normal policy bot top a) (normal policy bot top b)

theorem mkImplies_bot {policy : Policy} (h : policy.negation ≠ .keep) (bot a : Expr) :
    mkImplies policy bot a bot = mkNot policy bot a := by
  unfold mkImplies mkNot
  cases hneg : policy.negation with
  | keep => exact absurd hneg h
  | asImplication => simp
  | fromImplication => simp

/-! ### The opaque reading -/

section Opaque

variable {leaf : Expr → Bool} {policy : Policy} {bot : Expr}

theorem opaqueEval_binary {op : BinOp} (hop : op ≠ .iff) (a b : Expr) :
    (binary op a b).opaqueEval leaf = op.eval (a.opaqueEval leaf) (b.opaqueEval leaf) := by
  rw [opaqueEval, if_neg hop]

theorem opaqueEval_iff (a b : Expr) :
    (binary .iff a b).opaqueEval leaf = leaf (.binary .iff a b) := by
  rw [opaqueEval, if_pos rfl]

/-- The classical reading is the opaque one in which equivalences have their classical values. -/
theorem opaqueEval_eval (v : String → Bool) (e : Expr) : e.opaqueEval (eval v) = e.eval v := by
  induction e with
  | falsum => rfl
  | verum => rfl
  | atom name => rfl
  | not a ih => rw [opaqueEval, ih, eval]
  | binary op a b iha ihb =>
    by_cases hop : op = .iff
    · subst hop
      exact opaqueEval_iff a b
    · rw [opaqueEval_binary hop, iha, ihb, eval]

theorem opaqueEval_mkNot (hbot : bot.opaqueEval leaf = false) (a : Expr) :
    (mkNot policy bot a).opaqueEval leaf = !a.opaqueEval leaf := by
  unfold mkNot
  split
  · rw [opaqueEval_binary (by decide), hbot, BinOp.eval, Bool.or_false]
  · rfl
  · rfl

theorem opaqueEval_mkImplies (hbot : bot.opaqueEval leaf = false) (a b : Expr) :
    (mkImplies policy bot a b).opaqueEval leaf = (!a.opaqueEval leaf || b.opaqueEval leaf) := by
  unfold mkImplies
  split
  · rename_i h
    rw [opaqueEval, h.2, hbot, Bool.or_false]
  · exact opaqueEval_binary (by decide) a b

end Opaque

/-! ### Normal forms mean what the expression means -/

section Eval

variable {v : String → Bool} {policy : Policy} {bot top : Expr}

theorem eval_mkNot (hbot : bot.eval v = false) (a : Expr) :
    (mkNot policy bot a).eval v = !a.eval v := by
  rw [← opaqueEval_eval] at hbot
  rw [← opaqueEval_eval, opaqueEval_mkNot hbot, opaqueEval_eval]

theorem eval_mkImplies (hbot : bot.eval v = false) (a b : Expr) :
    (mkImplies policy bot a b).eval v = (!a.eval v || b.eval v) := by
  rw [← opaqueEval_eval] at hbot
  rw [← opaqueEval_eval, opaqueEval_mkImplies hbot, opaqueEval_eval, opaqueEval_eval]

theorem eval_mkBinary (hbot : bot.eval v = false) (op : BinOp) (a b : Expr) :
    (mkBinary policy bot op a b).eval v = op.eval (a.eval v) (b.eval v) := by
  cases op with
  | and => rfl
  | or => rfl
  | implies => exact eval_mkImplies hbot a b
  | iff =>
    show (mkIff policy bot a b).eval v = (a.eval v == b.eval v)
    unfold mkIff
    split
    · rfl
    · rw [eval, eval_mkImplies hbot, eval_mkImplies hbot]
      cases a.eval v <;> cases b.eval v <;> rfl

/-- **Normal forms keep the meaning.** -/
theorem eval_normal (hbot : bot.eval v = false) (htop : top.eval v = true) (e : Expr) :
    (normal policy bot top e).eval v = e.eval v := by
  induction e with
  | falsum => exact hbot
  | verum => exact htop
  | atom name => rfl
  | not a ih => rw [normal, eval_mkNot hbot, ih, eval]
  | binary op a b iha ihb => rw [normal, eval_mkBinary hbot, iha, ihb, eval]

end Eval

/-! ### Normal forms of normal forms -/

section Twice

variable {p q : Policy} {falseName trueName : String}

theorem normal_mkNot (h : p.negation = .keep ∨ q.negation ≠ .keep) (a : Expr) :
    normal q (.atom falseName) (.atom trueName) (mkNot p (.atom falseName) a) =
      mkNot q (.atom falseName) (normal q (.atom falseName) (.atom trueName) a) := by
  unfold mkNot
  cases hneg : p.negation with
  | keep => rfl
  | fromImplication => rfl
  | asImplication =>
    have hq : q.negation ≠ .keep := h.resolve_left (by rw [hneg]; decide)
    exact mkImplies_bot hq _ _

theorem normal_mkImplies (h : p.negation = .keep ∨ q.negation ≠ .keep) (a b : Expr) :
    normal q (.atom falseName) (.atom trueName) (mkImplies p (.atom falseName) a b) =
      mkImplies q (.atom falseName) (normal q (.atom falseName) (.atom trueName) a)
        (normal q (.atom falseName) (.atom trueName) b) := by
  by_cases hnot : p.negation = .fromImplication ∧ b = .atom falseName
  · have hq : q.negation ≠ .keep := h.resolve_left (by rw [hnot.1]; decide)
    rw [mkImplies, if_pos hnot, hnot.2]
    exact (mkImplies_bot hq _ _).symm
  · rw [mkImplies, if_neg hnot]
    rfl

/-- **A normal form may be taken on the way to another one** that identifies at least as much:
equivalences are kept on the way, and negations are if the other policy keeps them. -/
theorem normal_normal (hp : p.equivalence = .keep) (h : p.negation = .keep ∨ q.negation ≠ .keep)
    (e : Expr) :
    normal q (.atom falseName) (.atom trueName) (normal p (.atom falseName) (.atom trueName) e) =
      normal q (.atom falseName) (.atom trueName) e := by
  induction e with
  | falsum => rfl
  | verum => rfl
  | atom name => rfl
  | not a ih => rw [normal, normal_mkNot h, ih, normal]
  | binary op a b iha ihb =>
    cases op with
    | and => simp only [normal, mkBinary, iha, ihb]
    | or => simp only [normal, mkBinary, iha, ihb]
    | implies => rw [normal, mkBinary, normal_mkImplies h, iha, ihb, normal, mkBinary]
    | iff => simp only [normal, mkBinary, mkIff, hp, iha, ihb]

/-- **An opaque reading of the coarser normal forms is one of the finer ones**: a leaf has the value
that its coarser normal form is given. -/
theorem opaqueEval_normal {leaf : Expr → Bool} (hp : p.equivalence = .keep)
    (h : p.negation = .keep ∨ q.negation ≠ .keep) (hfalse : leaf (.atom falseName) = false)
    (e : Expr) :
    (normal p (.atom falseName) (.atom trueName) e).opaqueEval
        (fun a => (normal q (.atom falseName) (.atom trueName) a).opaqueEval leaf) =
      (normal q (.atom falseName) (.atom trueName) e).opaqueEval leaf := by
  have hbot : (atom falseName).opaqueEval leaf = false := hfalse
  have hbot' : (atom falseName).opaqueEval
      (fun a => (normal q (.atom falseName) (.atom trueName) a).opaqueEval leaf) = false := hfalse
  induction e with
  | falsum => rfl
  | verum => rfl
  | atom name => rfl
  | not a ih => rw [normal, opaqueEval_mkNot hbot', ih, normal, opaqueEval_mkNot hbot]
  | binary op a b iha ihb =>
    cases op with
    | and => simp only [normal, mkBinary, opaqueEval, reduceCtorEq, if_false, iha, ihb]
    | or => simp only [normal, mkBinary, opaqueEval, reduceCtorEq, if_false, iha, ihb]
    | implies =>
      rw [normal, mkBinary, opaqueEval_mkImplies hbot', iha, ihb, normal, mkBinary,
        opaqueEval_mkImplies hbot]
    | iff =>
      have hkept : normal p (.atom falseName) (.atom trueName) (.binary .iff a b) =
          .binary .iff (normal p (.atom falseName) (.atom trueName) a)
            (normal p (.atom falseName) (.atom trueName) b) := by
        simp only [normal, mkBinary, mkIff, hp]
      -- the leaf has its value from its normal form, which is that of `a <=> b`
      rw [← normal_normal hp h, hkept, opaqueEval_iff]

/-- Where equivalences are expanded, no reading is opaque. -/
theorem opaqueEval_normal_of_expand {leaf : Expr → Bool} (hq : q.equivalence = .expand)
    (hfalse : leaf (.atom falseName) = false) (htrue : leaf (.atom trueName) = true) (e : Expr) :
    (normal q (.atom falseName) (.atom trueName) e).opaqueEval leaf =
      e.eval fun name => leaf (.atom name) := by
  have hbot : (atom falseName).opaqueEval leaf = false := hfalse
  induction e with
  | falsum => exact hfalse
  | verum => exact htrue
  | atom name => rfl
  | not a ih => rw [normal, opaqueEval_mkNot hbot, ih, eval]
  | binary op a b iha ihb =>
    cases op with
    | and => simp only [normal, mkBinary, opaqueEval, reduceCtorEq, if_false, iha, ihb, eval]
    | or => simp only [normal, mkBinary, opaqueEval, reduceCtorEq, if_false, iha, ihb, eval]
    | implies => rw [normal, mkBinary, opaqueEval_mkImplies hbot, iha, ihb, eval, BinOp.eval]
    | iff =>
      simp only [normal, mkBinary, mkIff, hq]
      rw [opaqueEval_binary (by decide), opaqueEval_mkImplies hbot, opaqueEval_mkImplies hbot, iha,
        ihb, eval]
      cases a.eval _ <;> cases b.eval _ <;> rfl

end Twice

end Expr

end SequentCalculus
