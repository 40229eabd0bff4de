import Mathlib.Data.List.Forall2
import Descent.Proofs.Gives
import Descent.Proofs.Sequences
import Descent.Proofs.WholeTexts

/-!
# Values play no part in whether a parse succeeds

A function on the values of a parser may as well be applied to the values of what is made of it. No
operation looks at a value to tell whether there was a success, so none of them can tell values
apart, be they null, empty or failures themselves.

* `Computes k g`: the function `k` computes `g`, and does nothing else.
* `Relabels g p q`: `q` does what `p` does, with other values.
* `many_map_pure`: **the loop,** round by round. `many1_map_pure` follows.
* `Maps k r r'`: the reference `r'` is to what `r` refers to, with `k` on its value.
* `orElse_map`, `firstOf_map`, `lexeme_map`, `logInput_map`, `bind_map`, `parseAll_map`: the other
  operations. Most of them need nothing of the function.
* `Script.constant v`: the function in scripts that makes `v` of everything. `Script.mapping f` is
  `f` on the members of a list.
* `values_play_no_part`: the results together.
-/

namespace Descent

namespace Parser

variable {ω ε α β γ : Type}

/-- **The function computes `g`,** and does nothing else. -/
def Computes (k : α → Run ω ε β) (g : α → β) : Prop := ∀ a, (k a).Agrees (pure (g a))

variable {k : α → Run ω ε β} {g : α → β}

theorem Computes.map_agrees (hk : Computes k g) (p : Parser ω ε α) :
    (p.map k).Agrees (p.map fun a => pure (g a)) := Parser.map_agrees (.refl p) hk

/-- **The second parser does what the first does, with other values.** It succeeds where the first
does, with the same remainder, and fails where the first fails. It leaves the same marks and raises
the same errors. -/
structure Relabels (g : α → β) (p : Parser ω ε α) (q : Parser ω ε β) : Prop where
  success : ∀ s t b r, (q.run s).Ends t (.ok (.success b r)) ↔
    ∃ a, (p.run s).Ends t (.ok (.success a r)) ∧ b = g a
  failure : ∀ s t, (q.run s).Ends t (.ok .failure) ↔ (p.run s).Ends t (.ok .failure)
  error : ∀ s t e, (q.run s).Ends t (.error e) ↔ (p.run s).Ends t (.error e)
  leaves : ∀ s t, (q.run s).Leaves t ↔ (p.run s).Leaves t

/-- A parser with a function on its value is one with other values and nothing else changed. -/
theorem relabels_of_agrees {p : Parser ω ε α} {q : Parser ω ε β}
    (h : q.Agrees (p.map fun a => pure (g a))) : Relabels g p q := by
  have hends (s : Text) (t : List ω) (o' : Outcome β) :
      (q.run s).Ends t (.ok o') ↔ ∃ o, (p.run s).Ends t (.ok o) ∧ o' = o.map g := by
    rw [(h s).ends_iff, map_pure_run, Run.ends_bind_pure_ok]
  refine ⟨fun s t b r => ?_, fun s t => ?_, fun s t e => ?_, fun s t => ?_⟩
  · rw [hends]
    constructor
    · rintro ⟨o, ho, hb⟩
      cases o with
      | failure => cases hb
      | success a rest =>
        cases hb
        exact ⟨a, ho, rfl⟩
    · rintro ⟨a, ha, rfl⟩
      exact ⟨_, ha, rfl⟩
  · rw [hends]
    constructor
    · rintro ⟨o, ho, hfailure⟩
      cases o with
      | failure => exact ho
      | success a rest => cases hfailure
    · exact fun h => ⟨.failure, h, rfl⟩
  · rw [(h s).ends_iff, map_pure_run, Run.ends_bind_pure_error]
  · rw [(h s).leaves_iff, map_pure_run, Run.leaves_bind_pure]

/-! ## Repetition -/

/-- A loop over other values, from values gathered so far. Each round ends as before, since it looks
at the outcome and not at the value. -/
theorem loopUpTo_round_map (p : Parser ω ε α) (g : α → β) (n m : Nat) (vs : List α) (s : Text) :
    Run.loopUpTo (round (p.map fun a => pure (g a))) n m (vs.map g, s) =
      (Run.loopUpTo (round p) n m (vs, s)).andThen fun o => .done [] (o.map (List.map g)) := by
  induction m generalizing vs s with
  | zero => rfl
  | succ m ih =>
    -- both loops run the body on the same text, and what they do next hangs on its outcome
    rw [loopUpTo_round, loopUpTo_round, map_pure_run, Run.bind_upTo, Progress.andThen_andThen,
      Progress.andThen_andThen]
    congr 1
    funext o
    cases o with
    | success a rest => exact (Progress.done_andThen ..).trans (ih (a :: vs) rest)
    | failure => simp

theorem many_map_pure (p : Parser ω ε α) (g : α → β) :
    many (p.map fun a => pure (g a)) = (many p).map fun vs => pure (vs.map g) := by
  refine Parser.ext (funext fun s => Run.ext_upTo fun n => ?_)
  rw [map_pure_run, Run.bind_upTo]
  exact loopUpTo_round_map p g n n [] s

theorem many1_map_pure (p : Parser ω ε α) (g : α → β) :
    many1 (p.map fun a => pure (g a)) = (many1 p).map fun vs => pure (vs.map g) := by
  refine Parser.ext (funext fun s => ?_)
  rw [many1_run, many_map_pure, map_pure_run, map_pure_run, many1_run, bind_assoc, bind_assoc]
  refine congrArg ((many p).run s >>= ·) (funext fun o => ?_)
  rw [pure_bind, pure_bind]
  match o with
  | .failure | .success [] _ | .success (_ :: _) _ => rfl

/-- **A function on each value is one on all of them together.** -/
theorem many_map {ks : List α → Run ω ε (List β)} (hk : Computes k g)
    (hks : Computes ks (List.map g)) (p : Parser ω ε α) :
    (many (p.map k)).Agrees ((many p).map ks) := by
  have hleft : (many (p.map k)).Agrees (many (p.map fun a => pure (g a))) :=
    (many_related (hk.map_agrees p).related).agrees
  have hright := hks.map_agrees (many p)
  exact (hleft.trans (.of_eq (many_map_pure p g))).trans hright.symm

theorem many1_map {ks : List α → Run ω ε (List β)} (hk : Computes k g)
    (hks : Computes ks (List.map g)) (p : Parser ω ε α) :
    (many1 (p.map k)).Agrees ((many1 p).map ks) := by
  have hleft : (many1 (p.map k)).Agrees (many1 (p.map fun a => pure (g a))) :=
    (many1_related (hk.map_agrees p).related).agrees
  have hright := hks.map_agrees (many1 p)
  exact (hleft.trans (.of_eq (many1_map_pure p g))).trans hright.symm

/-! ## Choices -/

/-- The second reference is to what the first refers to, with the function on its value. -/
def Maps (k : α → Run ω ε β) (r : Ref ω ε α) (r' : Ref ω ε β) : Prop :=
  (lazily r').Agrees ((lazily r).map k)

theorem maps_ready (k : α → Run ω ε β) (p : Parser ω ε α) :
    Maps k (.ready p) (.ready (p.map k)) := by
  unfold Maps
  rw [lazily_ready, lazily_ready]
  exact .refl _

theorem after_map (k : α → Run ω ε β) (r : Run ω ε (Parser ω ε α)) :
    (after r).map k = after (r >>= fun q => pure (q.map k)) := by
  refine Parser.ext (funext fun s => ?_)
  rw [map_run, after_run, after_run, bind_assoc, bind_assoc]
  refine congrArg (r >>= ·) (funext fun q => ?_)
  rw [pure_bind, map_run]

/-- A reference may be deferred for it, and is forced when its turn comes. -/
theorem maps_deferred (k : α → Run ω ε β) (r : Ref ω ε α) :
    Maps k r (.deferred (r.force >>= fun q => pure (q.map k))) :=
  .of_eq (after_map k r.force).symm

/-- **A choice commits to a success, whatever the value,** and goes on to the other parser after a
failure. -/
theorem orElse_map {r : Ref ω ε α} {r' : Ref ω ε β} (p : Parser ω ε α) (hr : Maps k r r') :
    ((p.map k).orElse r').Agrees ((p.orElse r).map k) := by
  intro s
  rw [orElse_run, map_run, map_run, orElse_run, bind_assoc, bind_assoc]
  refine (Run.Agrees.refl (p.run s)).bind fun o => ?_
  cases o with
  | success a rest =>
    refine .of_eq ?_
    simp only [bind_assoc, pure_bind]
  | failure =>
    simp only [pure_bind]
    exact hr s

/-- A function on the value of a choice may be put on that of each alternative. -/
theorem firstOf_map {rs : List (Ref ω ε α)} {rs' : List (Ref ω ε β)}
    (h : List.Forall₂ (Maps k) rs rs') : (firstOf rs').Agrees ((firstOf rs).map k) := by
  induction h with
  | nil => exact fun s => .of_eq (pure_bind ..).symm
  | @cons r r' rs rs' hr _ ih =>
    rw [firstOf_cons, firstOf_cons]
    -- a longer choice is one of two, with the rest of it in the second place
    have hrest : Maps k (.ready (firstOf rs)) (.ready (firstOf rs')) := by
      unfold Maps
      rwa [lazily_ready, lazily_ready]
    have hfirst : ((lazily r').orElse (.ready (firstOf rs'))).Agrees
        (((lazily r).map k).orElse (.ready (firstOf rs'))) :=
      (orElse_related (Agrees.related hr) (ready_related (Agrees.refl _).related)).agrees
    exact hfirst.trans (orElse_map (lazily r) hrest)

/-! ## Other operations -/

theorem lexeme_map (k : α → Run ω ε β) (p : Parser ω ε α) :
    (lexeme (p.map k)).Agrees ((lexeme p).map k) := by
  intro s
  refine (lexeme_agrees (p.map k) s).trans ?_
  rw [map_run, map_run, bind_assoc]
  refine .trans (.of_eq ?_) ((lexeme_agrees p s).bind fun _ => .refl _).symm
  rw [bind_assoc]
  refine congrArg (p.run (trim s) >>= ·) (funext fun o => ?_)
  cases o with
  | failure => simp only [pure_bind, Outcome.trim]
  | success a rest => simp only [pure_bind, bind_assoc, Outcome.trim]

theorem logInput_map (k : α → Run ω ε β) (o : Text → Run ω ε Unit) (p : Parser ω ε α) :
    logInput o (p.map k) = (logInput o p).map k := by
  refine Parser.ext (funext fun s => ?_)
  rw [logInput_run, map_run, map_run, logInput_run, bind_assoc]

theorem parseAll_map (hk : Computes k g) (p : Parser ω ε α) (s : Text) :
    ((p.map k).parseAll s).Agrees (p.parseAll s >>= fun x => pure (x.map g)) := by
  unfold parseAll
  refine ((hk.map_agrees p s).bind fun _ => .refl _).trans (.of_eq ?_)
  rw [map_pure_run, bind_assoc, bind_assoc]
  refine congrArg (p.run s >>= ·) (funext fun o => ?_)
  rw [pure_bind, pure_bind, Outcome.whole_map]

end Parser

/-! ## Functions in scripts -/

namespace Script

open Descent.Parser (Computes Maps Relabels many many1)
open Descent.Recipe (denote denoteRef denoteRefs)

/-- The function that makes `v` of everything. -/
def constant (v : Value) : Value := .closure [("v", v)] "x" (.var "v")

/-- What is done with a list `ys` of results and a further member `x`, under a function `f`. -/
def appending : Term := .fn "x" (.call (.data .add) [.var "ys",
  .call (.data .list) [.call (.act .call) [.var "f", .var "x"]]])

/-- The function that applies `f` to each member of a list. -/
def mapping (f : Value) : Value :=
  .closure [("f", f)] "xs"
    (.call (.act .fold) [.fn "ys" appending, .call (.data .list) [], .var "xs"])

/-- The deferred term that forces `x` and puts `f` on the value of the parser. -/
def mappedThunk (f x : Value) : Value :=
  .thunk [("f", f), ("x", x)]
    (.call (.make .map) [.var "f", .call (.act .force) [.var "x"]]) none

/-- The function that puts `f` on the value of the parser that `b` comes up with. -/
def mappedAfter (f b : Value) : Value :=
  .closure [("f", f), ("b", b)] "x"
    (.call (.make .map) [.var "f", .call (.act .call) [.var "b", .var "x"]])

variable (globals : Env)

theorem constant_computes (v : Value) :
    Computes ((calls globals).apply (constant v)) fun _ => v := by
  intro x
  refine (calls_apply_agrees ..).trans (.of_eq ?_)
  exact eval_var rfl

/-- One step of the fold. -/
theorem appending_agrees {f : Value} {g : Value → Value}
    (hf : Computes ((calls globals).apply f) g) (zs : Value) (ys : List Value) (x : Value) :
    ((calls globals).apply (.closure [("xs", zs), ("f", f)] "ys" appending) (.list ys) >>=
      fun k => (calls globals).apply k x).Agrees (pure (.list (ys ++ [g x]))) := by
  have hfirst := calls_apply_agrees globals [("xs", zs), ("f", f)] "ys" appending (.list ys)
  rw [appending, eval] at hfirst
  refine (hfirst.bind fun _ => .refl _).trans ?_
  rw [pure_bind]
  refine (calls_apply_agrees ..).trans ?_
  rw [eval_call_two, eval_var (x := .list ys) rfl, eval_call_one, eval_apply,
    eval_var (x := f) rfl, eval_var (x := x) rfl]
  simp only [pure_bind, bind_assoc]
  exact ((hf x).bind fun _ => .refl _).trans (.of_eq (pure_bind ..))

theorem foldValues_appending {f : Value} {g : Value → Value}
    (hf : Computes ((calls globals).apply f) g) (zs : Value) (ys xs : List Value) :
    (foldValues (calls globals) (.closure [("xs", zs), ("f", f)] "ys" appending) (.list ys)
      xs).Agrees (pure (.list (ys ++ xs.map g))) := by
  have hfold := foldValues_agrees (appending_agrees globals hf zs) ys xs
  rwa [List.map_id', List.foldl_append_eq_append, ← List.flatMap_def, ← List.map_eq_flatMap] at hfold

/-- **The function on the members of a list** computes what it is said to. -/
theorem mapping_agrees {f : Value} {g : Value → Value} (hf : Computes ((calls globals).apply f) g)
    (xs : List Value) :
    ((calls globals).apply (mapping f) (.list xs)).Agrees (pure (.list (xs.map g))) := by
  refine (calls_apply_agrees ..).trans ?_
  have hargs : evalAll (calls globals) globals [("xs", .list xs), ("f", f)]
      [.fn "ys" appending, .call (.data .list) [], .var "xs"] =
        pure [.closure [("xs", .list xs), ("f", f)] "ys" appending, .list [], .list xs] := by
    rw [evalAll, evalAll, evalAll, evalAll, eval_var (x := .list xs) rfl]
    rfl
  rw [eval, hargs, pure_bind]
  exact foldValues_appending globals hf (.list xs) [] xs

/-- **A parser comes up, and then its value is put through a function:** this is the same as to make
the mapped parser where the parser comes up. -/
theorem called_map_agrees (f : Value) (r : Run Mark Fault Value) :
    (Parser.after ((r >>= fun y => Run.ofExcept (Maker.make .map [f, y])) >>=
      Recipe.called (calls globals) (calls globals).parse)).Agrees
    ((Parser.after (r >>= Recipe.called (calls globals) (calls globals).parse)).map
      ((calls globals).apply f)) := by
  rw [Parser.after_map]
  intro s
  simp only [Parser.after_run, bind_assoc]
  refine (Run.Agrees.refl r).bind fun y => ?_
  have hmake : Maker.make .map [f, y] = y.parser? >>= fun r => .ok (.parser (.map f r)) := rfl
  have hcalled : Recipe.called (calls globals) (calls globals).parse y =
      Run.ofExcept y.parser? >>= fun r => pure ((calls globals).parse r) := rfl
  rw [hmake, hcalled]
  -- what is no parser is refused on both sides, and nothing is mapped then
  cases y.parser? with
  | error e => exact .refl _
  | ok q => exact (calls globals).parse_map_agrees f q s

/-- What a value stands for in the place of a reference: what it is forced to. -/
theorem lazily_toRef_agrees (x : Value) :
    (Parser.lazily (denoteRef (calls globals) (calls globals).parse x.toRef)).Agrees
      (Parser.after (Action.perform (calls globals) .force [x] >>=
        Recipe.called (calls globals) (calls globals).parse)) := by
  cases x with
  | parser r =>
    rw [Value.toRef, denoteRef, Parser.lazily_ready]
    exact ((calls globals).parse_agrees r).symm
  | _ => exact .refl _

/-- **A deferred term that maps is a reference to the mapped parser.** -/
theorem maps_mappedThunk (f x : Value) :
    Maps ((calls globals).apply f) (denoteRef (calls globals) (calls globals).parse x.toRef)
      (denoteRef (calls globals) (calls globals).parse (.deferred (mappedThunk f x))) := by
  have hforce : ((calls globals).force (mappedThunk f x)).Agrees
      (Action.perform (calls globals) .force [x] >>= fun y =>
        Run.ofExcept (Maker.make .map [f, y])) := by
    refine (calls_force_agrees ..).trans (.of_eq ?_)
    rw [eval_call_two, eval_call_one, eval_var (x := f) rfl, eval_var (x := x) rfl, labels]
    simp only [Option.toList_none, List.map_nil, List.forM_nil, pure_bind]
    rfl
  have hthunk : (Parser.lazily (denoteRef (calls globals) (calls globals).parse
      (.deferred (mappedThunk f x)))).Agrees (Parser.after
        ((Action.perform (calls globals) .force [x] >>= fun y =>
          Run.ofExcept (Maker.make .map [f, y])) >>=
            Recipe.called (calls globals) (calls globals).parse)) :=
    fun s => (hforce.bind fun _ => .refl _).bind fun _ => .refl _
  have hparser := Parser.map_agrees (lazily_toRef_agrees globals x)
    fun v => .refl ((calls globals).apply f v)
  exact hthunk.trans ((called_map_agrees globals f _).trans hparser.symm)

/-! ## The laws, of recipes -/

variable {globals} {f : Value} {g : Value → Value}

/-- Members of a list as references, and the deferred terms that map them. -/
theorem forall₂_mappedThunks (xs : List Value) :
    List.Forall₂ (Maps ((calls globals).apply f))
      (denoteRefs (calls globals) (calls globals).parse (xs.map Value.toRef))
      (denoteRefs (calls globals) (calls globals).parse
        (xs.map fun x => .deferred (mappedThunk f x))) := by
  induction xs with
  | nil => exact .nil
  | cons x xs ih => exact .cons (maps_mappedThunk globals f x) ih

theorem parse_orElse_map (r : Recipe Value) (x : Value) :
    ((calls globals).parse (.orElse (.map f r) (.deferred (mappedThunk f x)))).Agrees
      ((calls globals).parse (.map f (.orElse r x.toRef))) :=
  Host.parse_agrees_of_denote (Parser.orElse_map _ (maps_mappedThunk globals f x))

theorem parse_firstOf_map (xs : List Value) :
    ((calls globals).parse (.firstOf (xs.map fun x => .deferred (mappedThunk f x)))).Agrees
      ((calls globals).parse (.map f (.firstOf (xs.map Value.toRef)))) :=
  Host.parse_agrees_of_denote (Parser.firstOf_map (forall₂_mappedThunks xs))

theorem parse_lexeme_map (r : Recipe Value) :
    ((calls globals).parse (.lexeme (.map f r))).Agrees
      ((calls globals).parse (.map f (.lexeme r))) :=
  Host.parse_agrees_of_denote (Parser.lexeme_map _ _)

theorem parse_logInput_map (o : Value) (r : Recipe Value) :
    ((calls globals).parse (.logInput o (.map f r))).Agrees
      ((calls globals).parse (.map f (.logInput o r))) :=
  Host.parse_agrees_of_denote (.of_eq (Parser.logInput_map _ _ _))

/-- A function on the value of a sequence may be put on that of its second part, in scripts by a
function that maps the parser which comes up. -/
theorem parse_bind_map (r : Recipe Value) (b : Value) :
    ((calls globals).parse (.bind r (mappedAfter f b))).Agrees
      ((calls globals).parse (.map f (.bind r b))) := by
  have hcall (x : Value) : ((calls globals).apply (mappedAfter f b) x).Agrees
      ((calls globals).apply b x >>= fun y => Run.ofExcept (Maker.make .map [f, y])) := by
    refine (calls_apply_agrees ..).trans (.of_eq ?_)
    rw [eval_call_two, eval_apply, eval_var (x := f) rfl, eval_var (x := b) rfl,
      eval_var (x := x) rfl]
    simp only [pure_bind]
    rfl
  have hmapped := Parser.bind_map (denote (calls globals) (calls globals).parse r)
    (fun x => (calls globals).apply b x >>= Recipe.called (calls globals) (calls globals).parse)
    ((calls globals).apply f)
  refine Host.parse_agrees_of_denote (.trans ?_ (Parser.Agrees.of_eq hmapped).symm)
  refine Parser.bind_agrees (.refl _) fun x => ?_
  rw [← Parser.after_map]
  refine .trans (fun s => ?_) (called_map_agrees globals f ((calls globals).apply b x))
  exact ((hcall x).bind fun _ => .refl _).bind fun _ => .refl _

/-- Many values as one, of a parser that puts a function on each of them. -/
theorem ofList_agrees {p q : Parser Mark Fault (List Value)}
    (h : p.Agrees (q.map fun xs => pure (xs.map g))) :
    (Recipe.ofList (calls globals) p).Agrees (q.map fun xs => pure (.list (xs.map g))) := by
  have hlist := Parser.map_agrees h fun xs => .refl (pure (Value.list xs))
  rwa [Parser.map_pure_map] at hlist

theorem ofList_map (hf : Computes ((calls globals).apply f) g)
    {p q : Parser Mark Fault (List Value)} (h : p.Agrees (q.map fun xs => pure (xs.map g))) :
    (Recipe.ofList (calls globals) p).Agrees
      ((Recipe.ofList (calls globals) q).map ((calls globals).apply (mapping f))) := by
  have hmapping := Parser.map_agrees (.refl q) (mapping_agrees globals hf)
  refine (ofList_agrees h).trans (.trans hmapping.symm (.of_eq ?_))
  unfold Recipe.ofList
  rw [Parser.map_pure_map]
  rfl

theorem parse_many_map (hf : Computes ((calls globals).apply f) g) (r : Recipe Value) :
    ((calls globals).parse (.many (.map f r))).Agrees
      ((calls globals).parse (.map (mapping f) (.many r))) :=
  Host.parse_agrees_of_denote (ofList_map hf (Parser.many_map hf (fun _ => .refl _) _))

theorem parse_many1_map (hf : Computes ((calls globals).apply f) g) (r : Recipe Value) :
    ((calls globals).parse (.many1 (.map f r))).Agrees
      ((calls globals).parse (.map (mapping f) (.many1 r))) :=
  Host.parse_agrees_of_denote (ofList_map hf (Parser.many1_map hf (fun _ => .refl _) _))

/-- **What is made of a recipe with a function on its value** does the same as what is made of the
recipe, with the function on the value there. -/
structure Natural (globals : Env) (f : Value) (g : Value → Value) (r : Recipe Value) : Prop where
  many : ((calls globals).parse (.many (.map f r))).Agrees
    ((calls globals).parse (.map (mapping f) (.many r)))
  many1 : ((calls globals).parse (.many1 (.map f r))).Agrees
    ((calls globals).parse (.map (mapping f) (.many1 r)))
  orElse : ∀ x, ((calls globals).parse (.orElse (.map f r) (.deferred (mappedThunk f x)))).Agrees
    ((calls globals).parse (.map f (.orElse r x.toRef)))
  firstOf : ∀ xs, ((calls globals).parse (.firstOf ((Value.parser r :: xs).map fun x =>
    .deferred (mappedThunk f x)))).Agrees
      ((calls globals).parse (.map f (.firstOf ((Value.parser r :: xs).map Value.toRef))))
  lexeme : ((calls globals).parse (.lexeme (.map f r))).Agrees
    ((calls globals).parse (.map f (.lexeme r)))
  logInput : ∀ o, ((calls globals).parse (.logInput o (.map f r))).Agrees
    ((calls globals).parse (.map f (.logInput o r)))
  bind : ∀ b, ((calls globals).parse (.bind r (mappedAfter f b))).Agrees
    ((calls globals).parse (.map f (.bind r b)))
  parseAll : ∀ s, (Action.perform (calls globals) .parseAll [.parser (.map f r), .text s]).Agrees
    (((calls globals).parse r).parseAll s >>= fun x => pure (report (x.map g)))

/-- All the laws hold in scripts, of every function that computes and does nothing else. -/
theorem natural_of_computes (hf : Computes ((calls globals).apply f) g) (r : Recipe Value) :
    Natural globals f g r where
  many := parse_many_map hf r
  many1 := parse_many1_map hf r
  orElse := parse_orElse_map r
  firstOf xs := parse_firstOf_map (.parser r :: xs)
  lexeme := parse_lexeme_map r
  logInput o := parse_logInput_map o r
  bind := parse_bind_map r
  parseAll s := by
    have hparse := (calls globals).parse_map_agrees f r
    have hall : (((calls globals).parse (.map f r)).parseAll s).Agrees
        (((calls globals).parse r).parseAll s >>= fun x => pure (x.map g)) :=
      ((hparse s).bind fun _ => .refl _).trans (Parser.parseAll_map hf _ s)
    rw [perform_parseAll]
    refine (hall.bind fun _ => .refl _).trans (.of_eq ?_)
    simp only [bind_assoc, pure_bind]

/-! ## Values that are no longer told apart -/

variable (globals)

/-- **A constant in the place of every value changes no outcome.** -/
theorem relabels_constant (v : Value) (r : Recipe Value) :
    Relabels (fun _ => v) ((calls globals).parse r)
      ((calls globals).parse (.map (constant v) r)) := by
  refine Parser.relabels_of_agrees (((calls globals).parse_map_agrees _ r).trans ?_)
  exact (constant_computes globals v).map_agrees _

/-- A repetition finds as many constants as there were values. -/
theorem relabels_many_constant (v : Value) (r : Recipe Value) :
    Relabels (fun xs => .list (List.replicate xs.length v)) (many ((calls globals).parse r))
      ((calls globals).parse (.many (.map (constant v) r))) := by
  have hmap := (calls globals).parse_map_agrees (constant v) r
  have hmany := (Parser.many_related hmap.related).agrees.trans
    (Parser.many_map (constant_computes globals v) (fun _ => .refl _) _)
  have hparse := ((calls globals).parse_many_agrees _).trans (ofList_agrees hmany)
  simp only [← List.map_const']
  exact Parser.relabels_of_agrees hparse

theorem relabels_many1_constant (v : Value) (r : Recipe Value) :
    Relabels (fun xs => .list (List.replicate xs.length v)) (many1 ((calls globals).parse r))
      ((calls globals).parse (.many1 (.map (constant v) r))) := by
  have hmap := (calls globals).parse_map_agrees (constant v) r
  have hmany := (Parser.many1_related hmap.related).agrees.trans
    (Parser.many1_map (constant_computes globals v) (fun _ => .refl _) _)
  have hparse := ((calls globals).parse_many1_agrees _).trans (ofList_agrees hmany)
  simp only [← List.map_const']
  exact Parser.relabels_of_agrees hparse

end Script

namespace Parser

open Descent.Script (Natural calls constant)

variable {ω ε α β γ : Type}

/-- **Success never depends on the value.** A function that computes and does nothing else may be
put on the value of a parser, or on that of what is made of it: a repetition, with the function on
all the values; a choice of two parsers or of many, where others may be deferred; a lexeme, a
watched parser, a sequence. The two leave the same marks and come to the same outcome or error, or
to none. So parses of whole texts have the same reasons for having no value. With other values a
parser succeeds, consumes and repeats as before. In scripts this is so for all functions that
compute and do nothing else, and there is one that makes any given value of everything, be it null,
empty, or a failure. -/
theorem values_play_no_part {k : α → Run ω ε β} {g : α → β} {ks : List α → Run ω ε (List β)}
    (hk : Computes k g) (hks : Computes ks (List.map g)) (p : Parser ω ε α) :
    (many (p.map k)).Agrees ((many p).map ks) ∧
    (many1 (p.map k)).Agrees ((many1 p).map ks) ∧
    (∀ q q', Maps k q q' → ((p.map k).orElse q').Agrees ((p.orElse q).map k)) ∧
    (∀ qs qs', List.Forall₂ (Maps k) qs qs' → (firstOf qs').Agrees ((firstOf qs).map k)) ∧
    Maps k (.ready p) (.ready (p.map k)) ∧
    (∀ q, Maps k q (.deferred (q.force >>= fun p' => pure (p'.map k)))) ∧
    (lexeme (p.map k)).Agrees ((lexeme p).map k) ∧
    (∀ o, logInput o (p.map k) = (logInput o p).map k) ∧
    (∀ (q : Parser ω ε γ) f,
      (q.bind fun x => f x >>= fun p' => pure (p'.map k)) = (q.bind f).map k) ∧
    (∀ s, ((p.map k).parseAll s).Agrees (p.parseAll s >>= fun x => pure (x.map g))) ∧
    Relabels g p (p.map k) ∧ Relabels (List.map g) (many p) (many (p.map k)) ∧
    Relabels (List.map g) (many1 p) (many1 (p.map k)) ∧
    ∀ globals, (∀ f g r, Computes ((calls globals).apply f) g → Natural globals f g r) ∧
      ∀ v r, Computes ((calls globals).apply (constant v)) (fun _ => v) ∧
        Relabels (fun _ => v) ((calls globals).parse r)
          ((calls globals).parse (.map (constant v) r)) ∧
        Relabels (fun xs => .list (List.replicate xs.length v)) (many ((calls globals).parse r))
          ((calls globals).parse (.many (.map (constant v) r))) ∧
        Relabels (fun xs => .list (List.replicate xs.length v)) (many1 ((calls globals).parse r))
          ((calls globals).parse (.many1 (.map (constant v) r))) := by
  have hmany : (many (p.map k)).Agrees ((many p).map fun vs => pure (vs.map g)) :=
    many_map hk (fun _ => .refl _) p
  have hmany1 : (many1 (p.map k)).Agrees ((many1 p).map fun vs => pure (vs.map g)) :=
    many1_map hk (fun _ => .refl _) p
  refine ⟨many_map hk hks p, many1_map hk hks p, fun q q' => orElse_map p,
    fun qs qs' => firstOf_map, maps_ready k p, maps_deferred k, lexeme_map k p,
    fun o => logInput_map k o p,
    fun q f => (bind_map q f k).symm, parseAll_map hk p, relabels_of_agrees (hk.map_agrees p),
    relabels_of_agrees hmany, relabels_of_agrees hmany1, fun globals => ⟨?_, fun v r => ?_⟩⟩
  · exact fun f g r hf => Script.natural_of_computes hf r
  · exact ⟨Script.constant_computes globals v, Script.relabels_constant globals v r,
      Script.relabels_many_constant globals v r, Script.relabels_many1_constant globals v r⟩

/-- A failure in the place of the value of each digit. Both digits are found all the same, and the
letter behind them is left; and a choice takes the first alternative. -/
theorem values_play_no_part_failures :
    let one : Parser Script.Mark Script.Fault Script.Value := digit.map fun c => pure (.text [c])
    let lost : Script.Value := .outcome .failure
    let losing := (calls []).apply (constant lost)
    let losingAll : List Script.Value → Run Script.Mark Script.Fault (List Script.Value) :=
      fun vs => pure (vs.map fun _ => lost)
    Computes losing (fun _ => lost) ∧ Computes losingAll (List.map fun _ => lost) ∧
    (many (one.map losing)).Agrees ((many one).map losingAll) ∧
    ((many (one.map losing)).run ['1', '2', 'a']).Ends [] (.ok (.success [lost, lost] ['a'])) ∧
    Maps losing (.ready one) (.ready (one.map losing)) ∧
    ((one.map losing).orElse (.ready (one.map losing))).Agrees
      ((one.orElse (.ready one)).map losing) ∧
    List.Forall₂ (Maps losing) [.ready one] [.ready (one.map losing)] ∧
    (firstOf [.ready (one.map losing)]).Agrees ((firstOf [.ready one]).map losing) ∧
    Natural [] (constant lost) (fun _ => lost) .digit := by
  intro one lost losing losingAll
  have hlosing : Computes losing fun _ => lost := Script.constant_computes [] lost
  have hlosingAll : Computes losingAll (List.map fun _ => lost) := fun _ => .refl _
  obtain ⟨hmany, -, horElse, hfirstOf, hready, -, -, -, -, -, -, hrelabels, -, hscripts⟩ :=
    values_play_no_part (γ := Unit) hlosing hlosingAll one
  have hdigits : ((many one).run ['1', '2', 'a']).Ends []
      (.ok (.success [.text ['1'], .text ['2']] ['a'])) := ⟨3, rfl⟩
  have hlost := (hrelabels.success ['1', '2', 'a'] [] _ ['a']).2 ⟨_, hdigits, rfl⟩
  have hpairs : List.Forall₂ (Maps losing) [.ready one] [.ready (one.map losing)] := .cons hready .nil
  exact ⟨hlosing, hlosingAll, hmany, hlost, hready, horElse _ _ hready, hpairs,
    hfirstOf _ _ hpairs, (hscripts []).1 _ _ .digit hlosing⟩

end Parser

end Descent
