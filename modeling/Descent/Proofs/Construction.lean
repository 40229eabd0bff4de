import Descent.Script.Eval

/-!
# Making a parser

To put a parser together does nothing else. A construction is a term of makers over parsers, texts,
functions and deferred terms. What it comes to is known from the shapes of its leaves: nothing is
called, forced or run, whatever the functions in it would do.

* `Value.shape`: what a maker can tell of its arguments. `Maker.admits ks`: it takes arguments of
  these shapes, and `Maker.gives` is the shape of what it makes.
* `Maker.refusal? ks`: the two ways in which it refuses.
* `Term.plan?`: the shape of a construction, and its makers in the order of evaluation.
* `make_of_admits`: one maker. `eval_of_plan`: a whole construction, by induction on it.
* `construction_inert`: **a construction yields its value or the first refusal, and does nothing
  else.**
-/

namespace Descent.Script

/-! ## Shapes -/

/-- What may be told of a value without looking into functions and parsers. -/
inductive Shape where
  | parser
  | text (s : Text)
  | function
  | data
deriving Repr, DecidableEq

namespace Value

def shape : Value → Shape
  | parser _ => .parser
  | text s => .text s
  | closure .. | thunk .. | equals _ | unpacked _ | recorder _ | printer => .function
  | _ => .data

end Value

/-- What is wanted of an argument. -/
inductive Want where
  | parser
  | text
  | any
deriving Repr, DecidableEq

def Want.admits : Want → Shape → Bool
  | parser, .parser => true
  | text, .text _ => true
  | any, _ => true
  | _, _ => false

/-- Whether arguments are what is wanted of them: first these, and then as many as there are of a
further kind, if there is one. -/
def admitAll (more : Option Want) : List Want → List Shape → Bool
  | w :: ws, k :: ks => w.admits k && admitAll more ws ks
  | _ :: _, [] => false
  | [], ks => match more with
    | none => ks.isEmpty
    | some w => ks.all w.admits

namespace Maker

/-- The arguments that are always there. -/
def wants : Maker → List Want
  | anyChar | peek | letter | digit | letterOrDigit | space | blank | digitValue | fail
  | firstOf => []
  | satisfy | succeed | lazily | tap | custom => [.any]
  | char | literal => [.text]
  | bind | mapped | orElse | logInput => [.parser, .any]
  | map | liftAs => [.any, .parser]
  | ap | keepRight | keepLeft => [.parser, .parser]
  | many | many1 | lexeme | printInput | unpack => [.parser]

/-- What is wanted of further arguments, where there may be any. -/
def wantsMore : Maker → Option Want
  | liftAs => some .parser
  | firstOf => some .any
  | _ => none

/-- Whether the maker takes arguments of these shapes. -/
def admits (m : Maker) (ks : List Shape) : Bool := admitAll m.wantsMore m.wants ks

/-- What it makes of them. -/
def gives : Maker → Shape
  | unpack => .function
  | _ => .parser

/-- Why the maker refuses, if it does. -/
def refusal? : Maker → List Shape → Option BuildError
  | char, [.text s] => if s.length = 1 then none else some (.notOneChar s)
  | firstOf, ks => if ks.length < 2 then some .tooFewChoices else none
  | _, _ => none

end Maker

/-! ## Plans -/

/-- A maker and the shapes of its arguments. -/
structure Node where
  maker : Maker
  shapes : List Shape
deriving Repr, DecidableEq

def Node.refusal? (n : Node) : Option BuildError := n.maker.refusal? n.shapes

/-- **The refusals there are:** a single character is asked for by a text that is not just one, and
a choice is to be made of less than two alternatives. -/
inductive Node.Refuses : Node → BuildError → Prop
  | char (s : Text) (h : s.length ≠ 1) : Refuses ⟨.char, [.text s]⟩ (.notOneChar s)
  | firstOf (ks : List Shape) (h : ks.length < 2) : Refuses ⟨.firstOf, ks⟩ .tooFewChoices

/-- The refusal of a maker, as it is computed, is one of those there are. -/
theorem Node.refusal?_eq_some_iff {n : Node} {e : BuildError} :
    n.refusal? = some e ↔ n.Refuses e := by
  obtain ⟨m, ks⟩ := n
  constructor
  · intro h
    change m.refusal? ks = some e at h
    unfold Maker.refusal? at h
    split at h
    · obtain ⟨hs, h⟩ := Option.ite_none_left_eq_some.1 h
      cases h
      exact .char _ hs
    · obtain ⟨hks, h⟩ := Option.ite_none_right_eq_some.1 h
      cases h
      exact .firstOf _ hks
    · cases h
  · rintro (⟨s, h⟩ | ⟨ks, h⟩)
    · exact if_neg h
    · exact if_pos h

theorem Node.refusal?_eq_none_iff {n : Node} : n.refusal? = none ↔ ∀ e, ¬n.Refuses e := by
  simp only [← refusal?_eq_some_iff, Option.eq_none_iff_forall_ne_some, ne_eq]

/-- What a construction comes to: a value of this shape, by these makers, one after the other. -/
structure Plan where
  shape : Shape
  nodes : List Node
deriving Repr, DecidableEq

/-- The first refusal there is. -/
def Plan.refusal? (b : Plan) : Option BuildError := b.nodes.findSome? Node.refusal?

section

variable (look : String → Option Value)

mutual

/-- **The plan of a construction,** where names stand for values. Arguments come before their maker
and from left to right. A term that is something else, or that gives a maker what it does not take,
has none. -/
def Term.plan? : Term → Option Plan
  | .null | .bool _ | .int _ => some ⟨.data, []⟩
  | .text s => some ⟨.text s, []⟩
  | .var name => (look name).map fun x => ⟨x.shape, []⟩
  | .fn _ _ | .thunk _ _ => some ⟨.function, []⟩
  | .call (.make m) args => do
    let bs ← plans? args
    let ks := bs.map Plan.shape
    if m.admits ks then some ⟨m.gives, bs.flatMap Plan.nodes ++ [⟨m, ks⟩]⟩ else none
  | _ => none
termination_by structural t => t

def Term.plans? : List Term → Option (List Plan)
  | [] => some []
  | t :: ts => do return (← Term.plan? t) :: (← plans? ts)
termination_by structural ts => ts

end

end

/-! ## One maker -/

/-- The value, unless there is a refusal. -/
def settled {α : Type} : Option BuildError → α → Except Fault α
  | none, a => .ok a
  | some e, _ => .error (.build e)

section

variable {x : Value} {xs : List Value}

theorem admits_parser_iff : Want.parser.admits x.shape = true ↔ ∃ r, x = .parser r := by
  cases x <;> simp [Value.shape, Want.admits]

theorem admits_text_iff : Want.text.admits x.shape = true ↔ ∃ s, x = .text s := by
  cases x <;> simp [Value.shape, Want.admits]

/-- Arguments are admitted one after the other. -/
theorem admitAll_cons_iff {more : Option Want} {w : Want} {ws : List Want} :
    admitAll more (w :: ws) (xs.map Value.shape) = true ↔
      ∃ x ys, xs = x :: ys ∧ w.admits x.shape = true ∧
        admitAll more ws (ys.map Value.shape) = true := by
  cases xs with
  | nil => simp [admitAll]
  | cons x xs =>
    simp only [List.map_cons, admitAll, Bool.and_eq_true]
    constructor
    · exact fun h => ⟨x, xs, rfl, h⟩
    · rintro ⟨_, _, h, hx⟩
      cases h
      exact hx

theorem admitAll_one_iff {w : Want} : admitAll none [w] (xs.map Value.shape) = true ↔
    ∃ x, xs = [x] ∧ w.admits x.shape = true := by
  simp only [admitAll_cons_iff, admitAll, List.isEmpty_iff, List.map_eq_nil_iff]
  constructor
  · rintro ⟨x, _, rfl, hx, rfl⟩
    exact ⟨x, rfl, hx⟩
  · rintro ⟨x, rfl, hx⟩
    exact ⟨x, [], rfl, hx, rfl⟩

theorem admitAll_two_iff {w w' : Want} : admitAll none [w, w'] (xs.map Value.shape) = true ↔
    ∃ x y, xs = [x, y] ∧ w.admits x.shape = true ∧ w'.admits y.shape = true := by
  rw [admitAll_cons_iff]
  constructor
  · rintro ⟨x, ys, rfl, hx, hys⟩
    obtain ⟨y, rfl, hy⟩ := admitAll_one_iff.1 hys
    exact ⟨x, y, rfl, hx, hy⟩
  · rintro ⟨x, y, rfl, hx, hy⟩
    exact ⟨x, [y], rfl, hx, admitAll_one_iff.2 ⟨y, rfl, hy⟩⟩

theorem parsers?_of_admits (h : admitAll (some .parser) [] (xs.map Value.shape) = true) :
    ∃ rs, Value.parsers? xs = .ok rs := by
  induction xs with
  | nil => exact ⟨[], rfl⟩
  | cons x xs ih =>
    simp only [admitAll, List.map_cons, List.all_cons, Bool.and_eq_true] at h ih
    obtain ⟨r, rfl⟩ := admits_parser_iff.1 h.1
    obtain ⟨rs, hrs⟩ := ih h.2
    exact ⟨r :: rs, by rw [Value.parsers?, hrs]; rfl⟩

end

theorem make_char (s : Text) : ∃ x : Value, x.shape = .parser ∧
    Maker.char.make [.text s] = settled (Maker.char.refusal? [.text s]) x := by
  match s with
  | [] => exact ⟨.parser .fail, rfl, rfl⟩
  | [c] => exact ⟨.parser (.char c), rfl, rfl⟩
  | c :: d :: s =>
    have hs : (c :: d :: s).length ≠ 1 := by simp
    exact ⟨.parser .fail, rfl, by rw [Maker.refusal?, if_neg hs]; rfl⟩

theorem make_firstOf (xs : List Value) : ∃ x : Value, x.shape = .parser ∧
    Maker.firstOf.make xs = settled (Maker.firstOf.refusal? (xs.map Value.shape)) x := by
  match xs with
  | [] => exact ⟨.parser .fail, rfl, rfl⟩
  | [_] => exact ⟨.parser .fail, rfl, rfl⟩
  | x :: y :: xs =>
    have hlen : ¬((x :: y :: xs).map Value.shape).length < 2 := by simp
    exact ⟨_, rfl, by rw [Maker.refusal?, if_neg hlen]; rfl⟩

/-- **A maker gives what it should,** unless it refuses. -/
theorem make_of_admits {m : Maker} {xs : List Value} (h : m.admits (xs.map Value.shape) = true) :
    ∃ x : Value, x.shape = m.gives ∧ m.make xs = settled (m.refusal? (xs.map Value.shape)) x := by
  unfold Maker.admits at h
  cases m with
  | char =>
    obtain ⟨x, rfl, hx⟩ := admitAll_one_iff.1 h
    obtain ⟨s, rfl⟩ := admits_text_iff.1 hx
    exact make_char s
  | firstOf => exact make_firstOf xs
  | liftAs =>
    obtain ⟨f, ys, rfl, -, hys⟩ := admitAll_cons_iff.1 h
    obtain ⟨x, zs, rfl, hx, hzs⟩ := admitAll_cons_iff.1 hys
    obtain ⟨r, rfl⟩ := admits_parser_iff.1 hx
    obtain ⟨rs, hrs⟩ := parsers?_of_admits hzs
    refine ⟨.parser (.liftAs f r rs), rfl, ?_⟩
    change (Value.parsers? zs >>= fun rs => pure (Value.parser (.liftAs f r rs))) = _
    rw [hrs]
    rfl
  | literal =>
    obtain ⟨x, rfl, hx⟩ := admitAll_one_iff.1 h
    obtain ⟨s, rfl⟩ := admits_text_iff.1 hx
    exact ⟨_, rfl, rfl⟩
  | satisfy | succeed | lazily | tap | custom =>
    obtain ⟨x, rfl, -⟩ := admitAll_one_iff.1 h
    exact ⟨_, rfl, rfl⟩
  | many | many1 | lexeme | printInput | unpack =>
    obtain ⟨x, rfl, hx⟩ := admitAll_one_iff.1 h
    obtain ⟨r, rfl⟩ := admits_parser_iff.1 hx
    exact ⟨_, rfl, rfl⟩
  | bind | mapped | orElse | logInput =>
    obtain ⟨x, y, rfl, hx, -⟩ := admitAll_two_iff.1 h
    obtain ⟨r, rfl⟩ := admits_parser_iff.1 hx
    exact ⟨_, rfl, rfl⟩
  | map =>
    obtain ⟨f, x, rfl, -, hx⟩ := admitAll_two_iff.1 h
    obtain ⟨r, rfl⟩ := admits_parser_iff.1 hx
    exact ⟨_, rfl, rfl⟩
  | ap | keepRight | keepLeft =>
    obtain ⟨x, y, rfl, hx, hy⟩ := admitAll_two_iff.1 h
    obtain ⟨r, rfl⟩ := admits_parser_iff.1 hx
    obtain ⟨q, rfl⟩ := admits_parser_iff.1 hy
    exact ⟨_, rfl, rfl⟩
  | _ =>
    -- the parsers for characters, which are there at once
    obtain rfl : xs = [] := by simpa [Maker.wants, Maker.wantsMore, admitAll] using h
    exact ⟨_, rfl, rfl⟩

/-! ## Whole constructions -/

theorem settled_bind {α β : Type} {e? e?' : Option BuildError} {a : α} {b : β}
    (f : α → Run Mark Fault β) (h : f a = Run.ofExcept (settled e?' b)) :
    Run.ofExcept (settled e? a) >>= f = Run.ofExcept (settled (e?.or e?') b) := by
  cases e? with
  | none => exact (pure_bind a f).trans h
  | some e => exact Run.raise_bind _ f

/-- The value of a name in sight. -/
def inSight (globals env : Env) (name : String) : Option Value :=
  (env.lookup name).or (globals.lookup name)

section

variable {globals env : Env}

mutual

/-- **A term with a plan comes to what the plan says,** whatever calls mean: to the first refusal of
its makers, or else to a value of the shape. By induction on the term, together with its arguments. -/
theorem eval_of_plan : ∀ (t : Term) {b : Plan}, t.plan? (inSight globals env) = some b →
    ∃ x : Value, x.shape = b.shape ∧
      ∀ h : Calls, eval h globals env t = Run.ofExcept (settled b.refusal? x)
  | .null, _, rfl => ⟨.null, rfl, fun _ => rfl⟩
  | .bool b, _, rfl => ⟨.bool b, rfl, fun _ => rfl⟩
  | .int i, _, rfl => ⟨.int i, rfl, fun _ => rfl⟩
  | .text s, _, rfl => ⟨.text s, rfl, fun _ => rfl⟩
  | .fn param body, _, rfl => ⟨.closure env param body, rfl, fun _ => rfl⟩
  | .thunk body label, _, rfl => ⟨.thunk env body label, rfl, fun _ => rfl⟩
  | .var name, b, hb => by
    obtain ⟨x, hx, rfl⟩ := Option.map_eq_some_iff.1 hb
    unfold inSight at hx
    exact ⟨x, rfl, fun h => by rw [eval, hx]; rfl⟩
  | .call (.make m) args, b, hb => by
    obtain ⟨bs, hbs, hb⟩ := Option.bind_eq_some_iff.1 hb
    obtain ⟨xs, hxs, hargs⟩ := evalAll_of_plans args hbs
    by_cases hm : m.admits (bs.map Plan.shape)
    · rw [if_pos hm] at hb
      obtain rfl := Option.some.inj hb
      rw [← hxs] at hm ⊢
      obtain ⟨x, hx, hmake⟩ := make_of_admits hm
      refine ⟨x, hx, fun h => ?_⟩
      have hperform : Op.perform h (.make m) xs =
          Run.ofExcept (settled (m.refusal? (xs.map Value.shape)) x) := congrArg Run.ofExcept hmake
      rw [eval, hargs h, Plan.refusal?, List.findSome?_append]
      refine (settled_bind _ hperform).trans ?_
      rw [List.findSome?_singleton]
      rfl
    · rw [if_neg hm] at hb
      cases hb

/-- Arguments come to the first refusal in any of them, or else to values of their shapes. -/
theorem evalAll_of_plans : ∀ (ts : List Term) {bs : List Plan},
    Term.plans? (inSight globals env) ts = some bs →
    ∃ xs : List Value, xs.map Value.shape = bs.map Plan.shape ∧
      ∀ h : Calls, evalAll h globals env ts =
        Run.ofExcept (settled ((bs.flatMap Plan.nodes).findSome? Node.refusal?) xs)
  | [], _, rfl => ⟨[], rfl, fun _ => rfl⟩
  | t :: ts, bs, hbs => by
    obtain ⟨b, hb, hbs⟩ := Option.bind_eq_some_iff.1 hbs
    obtain ⟨bs', hbs', hbs⟩ := Option.bind_eq_some_iff.1 hbs
    obtain rfl := Option.some.inj hbs
    obtain ⟨x, hx, ht⟩ := eval_of_plan t hb
    obtain ⟨xs, hxs, hts⟩ := evalAll_of_plans ts hbs'
    refine ⟨x :: xs, by rw [List.map_cons, hx, hxs, List.map_cons], fun h => ?_⟩
    have hrest : (evalAll h globals env ts >>= fun xs => pure (x :: xs)) =
        Run.ofExcept (settled ((bs'.flatMap Plan.nodes).findSome? Node.refusal?) (x :: xs)) := by
      have hpure : (pure (x :: xs) : Run Mark Fault (List Value)) =
          Run.ofExcept (settled none (x :: xs)) := rfl
      rw [hts h, settled_bind (fun xs => pure (x :: xs)) hpure, Option.or_none]
    rw [evalAll, ht h, List.flatMap_cons, List.findSome?_append]
    exact settled_bind _ hrest

end

/-- **Making a parser is inert.** Whatever calls do, a construction comes to a value of the shape
that it should have, if none of its makers refuses its arguments. Otherwise it raises the error of
the first that does, where arguments come before their maker and from left to right. Either way it
leaves no marks, and it is the same for all meanings of calls, so that none has been made. -/
theorem construction_inert {t : Term} {b : Plan} (hb : t.plan? (inSight globals env) = some b) :
    (∃ before n after e, b.nodes = before ++ n :: after ∧ (∀ m ∈ before, ∀ e', ¬m.Refuses e') ∧
      n.Refuses e ∧ ∀ h : Calls, eval h globals env t = Run.raise (.build e)) ∨
    ((∀ n ∈ b.nodes, ∀ e, ¬n.Refuses e) ∧
      ∃ x : Value, x.shape = b.shape ∧ ∀ h : Calls, eval h globals env t = pure x) := by
  obtain ⟨x, hx, heval⟩ := eval_of_plan t hb
  cases he : b.refusal? with
  | none =>
    rw [he] at heval
    refine .inr ⟨fun n hn => ?_, x, hx, heval⟩
    exact Node.refusal?_eq_none_iff.1 (List.findSome?_eq_none_iff.1 he n hn)
  | some e =>
    rw [he] at heval
    obtain ⟨before, n, after, hnodes, hn, hbefore⟩ := List.findSome?_eq_some_iff.1 he
    refine .inl ⟨before, n, after, e, hnodes, fun m hm => ?_, Node.refusal?_eq_some_iff.1 hn, heval⟩
    exact Node.refusal?_eq_none_iff.1 (hbefore m hm)

end

/-- A digit behind any number of brackets. What is deferred is a name that stands for nothing. -/
def bracketed : Term :=
  .call (.make .firstOf) [
    .call (.make .keepRight) [.call (.make .char) [.text ['(']],
      .call (.make .lazily) [.thunk (.var "bracketed") none]],
    .call (.make .digit) []]

/-- The makers in it, in the order of evaluation. -/
def bracketedNodes : List Node :=
  [⟨.char, [.text ['(']]⟩, ⟨.lazily, [.function]⟩, ⟨.keepRight, [.parser, .parser]⟩, ⟨.digit, []⟩,
    ⟨.firstOf, [.parser, .parser]⟩]

/-- A grammar is there before its name stands for it. -/
theorem construction_inert_bracketed :
    bracketed.plan? (inSight [] []) = some ⟨.parser, bracketedNodes⟩ ∧
    ∃ x : Value, x.shape = .parser ∧ ∀ h : Calls, eval h [] [] bracketed = pure x := by
  have hb : bracketed.plan? (inSight [] []) = some ⟨.parser, bracketedNodes⟩ := rfl
  have hnone : ∀ n ∈ bracketedNodes, n.refusal? = none := by decide
  refine ⟨hb, ?_⟩
  rcases construction_inert hb with ⟨before, n, after, e, hnodes, -, hn, -⟩ | ⟨-, hx⟩
  · have hmem : n ∈ bracketedNodes := by
      change bracketedNodes = _ at hnodes
      rw [hnodes]
      exact List.mem_append_right before List.mem_cons_self
    exact absurd hn (Node.refusal?_eq_none_iff.1 (hnone n hmem) e)
  · exact hx

/-- The choice is refused for want of a second alternative, but its only one is refused first. -/
example : ((Term.call (.make .firstOf) [.call (.make .lexeme) [.call (.make .char)
    [.text ['a', 'b']]]]).plan? (inSight [] [])).bind Plan.refusal? =
      some (.notOneChar ['a', 'b']) := rfl

end Descent.Script
