import Stacklet.Number

/-!
Programs. A block is a list of statements: expressions, assignments of the values that a block
leaves, and methods. Comments are part of the tree.
-/

namespace Stacklet

mutual

inductive Term where
  | number (n : Number)
  | identifier (name : String)
  | comment (text : String)
  | block (body : List Statement)

inductive Statement where
  | expression (terms : List Term) (comment : Option String)
  | assignment (names : List String) (value : List Statement) (comment : Option String)
  | method (name : String) (body : List Statement) (comment : Option String)

end

abbrev Block := List Statement

mutual

def Term.decEq : (a b : Term) → Decidable (a = b)
  | .number m, .number n => decidable_of_iff (m = n) (by simp)
  | .identifier x, .identifier y => decidable_of_iff (x = y) (by simp)
  | .comment s, .comment t => decidable_of_iff (s = t) (by simp)
  | .block b, .block c =>
    have := Block.decEq b c
    decidable_of_iff (b = c) (by simp)
  | .number _, .identifier _ | .number _, .comment _ | .number _, .block _
  | .identifier _, .number _ | .identifier _, .comment _ | .identifier _, .block _
  | .comment _, .number _ | .comment _, .identifier _ | .comment _, .block _
  | .block _, .number _ | .block _, .identifier _ | .block _, .comment _ => isFalse (by simp)

def Term.decEqs : (as bs : List Term) → Decidable (as = bs)
  | [], [] => isTrue rfl
  | a :: as, b :: bs =>
    have := Term.decEq a b
    have := Term.decEqs as bs
    decidable_of_iff (a = b ∧ as = bs) (by simp)
  | [], _ :: _ | _ :: _, [] => isFalse (by simp)

def Statement.decEq : (a b : Statement) → Decidable (a = b)
  | .expression as x, .expression bs y =>
    have := Term.decEqs as bs
    decidable_of_iff (as = bs ∧ x = y) (by simp)
  | .assignment ms b x, .assignment ns c y =>
    have := Block.decEq b c
    decidable_of_iff (ms = ns ∧ b = c ∧ x = y) (by simp)
  | .method m b x, .method n c y =>
    have := Block.decEq b c
    decidable_of_iff (m = n ∧ b = c ∧ x = y) (by simp)
  | .expression .., .assignment .. | .expression .., .method ..
  | .assignment .., .expression .. | .assignment .., .method ..
  | .method .., .expression .. | .method .., .assignment .. => isFalse (by simp)

def Block.decEq : (as bs : List Statement) → Decidable (as = bs)
  | [], [] => isTrue rfl
  | a :: as, b :: bs =>
    have := Statement.decEq a b
    have := Block.decEq as bs
    decidable_of_iff (a = b ∧ as = bs) (by simp)
  | [], _ :: _ | _ :: _, [] => isFalse (by simp)

end

instance : DecidableEq Term := Term.decEq

instance : DecidableEq Statement := Statement.decEq

def Statement.comment : Statement → Option String
  | .expression _ comment | .assignment _ _ comment | .method _ _ comment => comment

end Stacklet
