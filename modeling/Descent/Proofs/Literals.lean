import Descent.Proofs.Spacing

/-!
# Literals, piece by piece

A literal compares a slice of the text with itself. This is never anything else than asking for its
pieces in turn, however it is cut: into its characters, into two halves, or into parts that may be
empty.

* `literal_sequence`: **a literal of two parts is the one part and then the other.**
* `Concatenates app n f text`: the curried function of `n` texts that puts them together.
* `feed_pieces_agrees`: **asking for the pieces is asking for the whole,** by induction on the
  pieces.
* `Script.concatenator`: a concatenating function among the values of scripts.
* `literal_agrees_pieces`: the results together.
-/

namespace Descent

namespace Parser

variable {ω ε α φ : Type}

/-! ## Two parts -/

/-- **A literal of two parts is the one part and then the other.** -/
theorem literal_sequence (a b : Text) : (literal (a ++ b) : Parser ω ε Text) =
    (literal a).bind fun u => pure ((literal b).map fun v => pure (u ++ v)) := by
  refine Parser.ext (funext fun s => ?_)
  rw [bind_run]
  by_cases ha : a <+: s
  · obtain ⟨r, rfl⟩ := ha
    simp only [literal_append a r, pure_bind, map_pure_run]
    by_cases hb : b <+: r
    · obtain ⟨r, rfl⟩ := hb
      rw [← List.append_assoc, literal_append, literal_append, pure_bind, Outcome.map_success]
    · have hab : ¬a ++ b <+: a ++ r := fun h => hb ((List.prefix_append_right_inj a).1 h)
      rw [literal_of_not hab, literal_of_not hb, pure_bind, Outcome.map_failure]
  · have hab : ¬a ++ b <+: s := fun h => ha ((List.prefix_append a b).trans h)
    rw [literal_of_not hab, literal_of_not ha, pure_bind]

/-! ## Pieces -/

/-- A literal, with what `text` makes of it as its value. -/
def piece (text : Text → α) (l : Text) : Parser ω ε α := (literal l).map fun u => pure (text u)

/-- A character, with what `text` makes of it as its value. -/
def character (text : Text → α) (c : Char) : Parser ω ε α := (char c).map fun d => pure (text [d])

variable {text : Text → α}

/-- The only value of a literal is the literal. -/
theorem piece_eq_const (l : Text) :
    (piece text l : Parser ω ε α) = (literal l).map fun _ => pure (text l) := by
  refine Parser.ext (funext fun s => ?_)
  rw [piece, map_pure_run, map_pure_run]
  by_cases hl : l <+: s
  · obtain ⟨r, rfl⟩ := hl
    rw [literal_append, pure_bind, pure_bind, Outcome.map_success, Outcome.map_success]
  · rw [literal_of_not hl, pure_bind, pure_bind, Outcome.map_failure, Outcome.map_failure]

/-- A character is a literal of length one. -/
theorem character_eq_piece (c : Char) :
    (character text c : Parser ω ε α) = piece text [c] := by
  refine Parser.ext (funext fun s => ?_)
  rw [character, piece, map_pure_run, map_pure_run]
  by_cases hc : [c] <+: s
  · obtain ⟨r, rfl⟩ := hc
    rw [literal_append, List.singleton_append, char_cons, pure_bind, pure_bind, Outcome.map_success,
      Outcome.map_success]
  · have hnot : ∀ r, s ≠ c :: r := fun r hr => hc ⟨r, hr.symm⟩
    rw [literal_of_not hc, char_of_not hnot, pure_bind, pure_bind, Outcome.map_failure,
      Outcome.map_failure]

/-- **Asking for the pieces in turn is asking for the whole.** The function that is fed with the
pieces comes to its last value without marks, so nothing is to be seen of the applications. -/
theorem feed_pieces_agrees {app : φ → α → Run ω ε φ} {f g : φ} {ls : List Text}
    (hf : ((ls.map text).foldlM app f).Ends [] (.ok g)) :
    (feed app f (ls.map (piece text))).Agrees ((literal ls.flatten).map fun _ => pure g) := by
  induction ls generalizing f with
  | nil =>
    intro s
    obtain rfl : g = f := Except.ok.inj (Run.ends_pure.1 hf).2
    have hempty : (literal [] : Parser ω ε Text).run s = pure (.success [] s) := literal_append [] s
    rw [List.map_nil, feed_nil, List.flatten_nil, map_pure_run, hempty, pure_bind]
    exact .refl _
  | cons l ls ih =>
    intro s
    obtain ⟨f', happ, hrest⟩ := ends_foldlM_cons.1 hf
    rw [List.map_cons, feed_cons, piece, map_bind, List.flatten_cons, literal_sequence, bind_run,
      map_pure_run, bind_run]
    by_cases hl : l <+: s
    · obtain ⟨r, rfl⟩ := hl
      rw [literal_append]
      simp only [pure_bind, bind_assoc, map_pure_run, Outcome.map_map]
      refine (happ.agrees_pure.bind fun _ => .refl _).trans ?_
      rw [pure_bind]
      refine (ih hrest r).trans (.of_eq ?_)
      rw [map_pure_run]
      rfl
    · rw [literal_of_not hl, pure_bind, pure_bind, pure_bind]
      exact .refl _

/-- **The curried function of `n` texts that puts them together,** and does nothing else. -/
def Concatenates (app : α → α → Run ω ε α) (n : Nat) (f : α) (text : Text → α) : Prop :=
  ∀ us : List Text, us.length = n → ((us.map text).foldlM app f).Ends [] (.ok (text us.flatten))

variable {app : α → α → Run ω ε α} {f : α}

/-- So a literal is its pieces, lifted over a concatenating function. -/
theorem piece_agrees_liftAs (l : Text) (ls : List Text)
    (hf : Concatenates app (ls.length + 1) f text) :
    (piece text (l :: ls).flatten).Agrees
      (liftAs app f (piece text l) (ls.map (piece text)) : Parser ω ε α) := by
  rw [liftAs_eq_feed, ← List.map_cons, piece_eq_const]
  exact (feed_pieces_agrees (hf (l :: ls) rfl)).symm

/-- **So a literal is its characters in turn.** -/
theorem piece_agrees_characters {c : Char} {cs : Text}
    (hf : Concatenates app (cs.length + 1) f text) :
    (piece text (c :: cs)).Agrees
      (liftAs app f (character text c) (cs.map (character text)) : Parser ω ε α) := by
  have hcharacters : (character text : Char → Parser ω ε α) = fun d => piece text [d] :=
    funext character_eq_piece
  have hcut : ([c] :: cs.map fun d => [d]).flatten = c :: cs := by
    rw [List.flatten_cons, List.singleton_append, ← List.flatMap_def, List.flatMap_singleton']
  have h := piece_agrees_liftAs [c] (cs.map fun d => [d]) (List.length_map _ ▸ hf)
  rw [hcut, List.map_map] at h
  rw [hcharacters]
  exact h

/-- So is it two parts of it in turn. -/
theorem piece_agrees_parts {a b : Text} (hf : Concatenates app 2 f text) :
    (piece text (a ++ b)).Agrees (liftAs app f (piece text a) [piece text b] : Parser ω ε α) := by
  have h := piece_agrees_liftAs a [b] hf
  rw [List.flatten_cons, List.flatten_singleton] at h
  exact h

end Parser

/-! ## A concatenating function in scripts -/

namespace Script

open Descent.Parser (Concatenates character piece)

/-- The sum of a term and of the variables with these names. -/
def adding (t : Term) (names : List String) : Term :=
  names.foldl (fun t x => .call (.data .add) [t, .var x]) t

/-- The value of the curried function that adds its arguments, for names of which the first is
`x`. -/
def concatenator (x : String) (xs : List String) : Value :=
  .closure [] x (curried xs (adding (.var x) xs))

/-- A sum of texts is what they are together. -/
theorem eval_adding (h : Calls) (globals env : Env) {t : Term} {a : Text} {names : List String}
    {us : List Text} (ht : eval h globals env t = pure (.text a))
    (hnames : (names.map fun x => env.lookup x) = (us.map Value.text).map some) :
    eval h globals env (adding t names) = pure (.text (a ++ us.flatten)) := by
  induction names generalizing t a us with
  | nil =>
    obtain rfl : us = [] := List.map_eq_nil_iff.1 (List.map_eq_nil_iff.1 hnames.symm)
    rw [List.flatten_nil, List.append_nil]
    exact ht
  | cons x names ih =>
    cases us with
    | nil => cases hnames
    | cons u us =>
      obtain ⟨hx, hrest⟩ := List.cons.inj hnames
      have hsum : eval h globals env (.call (.data .add) [t, .var x]) = pure (.text (a ++ u)) := by
        have hargs : evalAll h globals env [t, .var x] = pure [.text a, .text u] := by
          simp [evalAll, eval, ht, hx]
        rw [eval, hargs, pure_bind]
        rfl
      rw [List.flatten_cons, ← List.append_assoc]
      exact ih hsum hrest

/-- **The adding function concatenates texts,** under any different names. -/
theorem concatenator_concatenates (globals : Env) (x : String) (xs : List String)
    (hnames : (x :: xs).Nodup) :
    Concatenates (calls globals).apply (xs.length + 1) (concatenator x xs) .text := by
  intro us hus
  have has : (us.map Value.text).length = (x :: xs).length := by rw [List.length_map, hus]; rfl
  have h := curried_agrees globals [] (x :: xs) (adding (.var x) xs) has
  have hlookup := lookup_zip_reverse [] hnames has
  generalize ((x :: xs).zip (us.map Value.text)).reverse ++ [] = env at h hlookup
  cases us with
  | nil => cases hus
  | cons u us =>
    obtain ⟨hx, hrest⟩ := List.cons.inj hlookup
    have hfirst : eval (calls globals) globals env (.var x) = pure (.text u) := by simp [eval, hx]
    rw [curried, eval, pure_bind, eval_adding _ _ _ hfirst hrest] at h
    exact h.ends_iff.2 (Run.ends_pure.2 ⟨rfl, rfl⟩)

/-- A literal, as a recipe, is its characters in turn under the adding function. -/
theorem parse_literal_agrees_characters (globals : Env) {x : String} {xs : List String}
    (hnames : (x :: xs).Nodup) {c : Char} {cs : Text} (hlen : xs.length = cs.length) :
    ((calls globals).parse (.literal (c :: cs))).Agrees
      ((calls globals).parse (.liftAs (concatenator x xs) (.char c) (cs.map .char))) := by
  have hliteral := (calls globals).parse_agrees (.literal (c :: cs))
  have hlifted := (calls globals).parse_agrees
    (.liftAs (concatenator x xs) (.char c) (cs.map .char))
  rw [Recipe.denote_liftAs, List.map_map] at hlifted
  have hconcatenates := hlen ▸ concatenator_concatenates globals x xs hnames
  exact hliteral.trans ((Parser.piece_agrees_characters hconcatenates).trans hlifted.symm)

/-- A literal of two parts, as a recipe, is both in turn under the function that adds them. -/
theorem parse_literal_agrees_parts (globals : Env) {x y : String} (hxy : x ≠ y) (a b : Text) :
    ((calls globals).parse (.literal (a ++ b))).Agrees
      ((calls globals).parse (.liftAs (concatenator x [y]) (.literal a) [.literal b])) := by
  have hliteral := (calls globals).parse_agrees (.literal (a ++ b))
  have hlifted := (calls globals).parse_agrees
    (.liftAs (concatenator x [y]) (.literal a) [.literal b])
  rw [Recipe.denote_liftAs] at hlifted
  have hnames : [x, y].Nodup := by simpa using hxy
  have hconcatenates := concatenator_concatenates globals x [y] hnames
  exact hliteral.trans ((Parser.piece_agrees_parts hconcatenates).trans hlifted.symm)

end Script

namespace Parser

open Descent.Script (calls concatenator)

variable {ω ε α : Type}

/-- **A literal is its pieces in turn.** It succeeds just on the texts that begin with it, with
itself and with what stands behind, and fails on the others; whether a text is long enough need not
be asked first. Under a function that puts texts together it does the same as its characters from
left to right, if it has any, and the same as two literals that it is made of, which may be empty.
This is so on every text, also where it ends too soon or differs in the last character. In scripts
there is such a function for any different names of its arguments. -/
theorem literal_agrees_pieces (app : α → α → Run ω ε α) (f : α) (text : Text → α) :
    (∀ l s, (literal l : Parser ω ε Text).run s =
      if s.length < l.length then pure .failure
      else if s.take l.length = l then pure (.success (s.take l.length) (s.drop l.length))
      else pure .failure) ∧
    (∀ l s, (literal l : Parser ω ε Text).run s =
      if s.take l.length = l then pure (.success l (s.drop l.length)) else pure .failure) ∧
    (∀ l s t u r, ((literal l : Parser ω ε Text).run s).Ends t (.ok (.success u r)) ↔
      t = [] ∧ u = l ∧ s = l ++ r) ∧
    (∀ l s, ¬l <+: s → (literal l : Parser ω ε Text).run s = pure .failure) ∧
    (∀ c (cs : Text), Concatenates app (cs.length + 1) f text →
      (piece text (c :: cs)).Agrees
        (liftAs app f (character text c) (cs.map (character text)))) ∧
    (∀ a b, Concatenates app 2 f text →
      (piece text (a ++ b)).Agrees (liftAs app f (piece text a) [piece text b])) ∧
    ∀ globals,
      (∀ x xs c (cs : Text), (x :: xs).Nodup → xs.length = cs.length →
        ((calls globals).parse (.literal (c :: cs))).Agrees
          ((calls globals).parse (.liftAs (concatenator x xs) (.char c) (cs.map .char)))) ∧
      ∀ x y a b, x ≠ y → ((calls globals).parse (.literal (a ++ b))).Agrees
        ((calls globals).parse (.liftAs (concatenator x [y]) (.literal a) [.literal b])) := by
  refine ⟨fun l s => rfl, literal_run, fun l s t u r => ?_, fun l s hl => literal_of_not hl,
    fun c cs hf => piece_agrees_characters hf, fun a b hf => piece_agrees_parts hf,
    fun globals => ⟨fun x xs c cs hnames hlen => ?_, fun x y a b hxy => ?_⟩⟩
  · exact (decides_literal l s).ends_success_iff
  · exact Script.parse_literal_agrees_characters globals hnames hlen
  · exact Script.parse_literal_agrees_parts globals hxy a b

/-- Two characters under the function that adds two texts, on a text that has the first and ends.
The literal that they make is not found there, and neither is the one after the other. -/
theorem literal_agrees_pieces_short :
    let l : Text := ['a', 'b']
    let add : Script.Value := concatenator "x" ["y"]
    (literal l : Parser Script.Mark Script.Fault Text).run ['a'] = pure .failure ∧
    Concatenates (calls []).apply 2 add .text ∧
    (piece .text l).Agrees (liftAs (calls []).apply add (character .text 'a')
      [character .text 'b']) ∧
    (piece .text (l ++ [])).Agrees (liftAs (calls []).apply add (piece .text l)
      [piece .text []]) ∧
    ((calls []).parse (.literal l)).Agrees
      ((calls []).parse (.liftAs add (.char 'a') [.char 'b'])) := by
  intro l add
  have hadd : Concatenates (calls []).apply 2 add .text :=
    Script.concatenator_concatenates [] "x" ["y"] (by decide)
  obtain ⟨-, -, -, hfails, hcharacters, hparts, hscripts⟩ :=
    literal_agrees_pieces (calls []).apply add Script.Value.text
  have hshort : ¬l <+: ['a'] := by decide
  exact ⟨hfails l ['a'] hshort, hadd, hcharacters 'a' ['b'] hadd, hparts l [] hadd,
    (hscripts []).1 "x" ["y"] 'a' ['b'] (by decide) rfl⟩

end Parser

end Descent
