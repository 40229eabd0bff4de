import Descent.Parser.Lexeme
import Descent.Parser.Watch
import Descent.Run.Translate

/-!
# Related parsers

Two parsers built in the same way from related parts are related: what holds of the runs of the
parts holds of the runs of the whole. Each operation has one lemma, for every relation between runs.

* `Related ρ p p'`: on every text the runs are related, with equal outcomes where both have one.
* `RefRelated ρ r r'`: the same of references, when they are run.
* `bind_related`, `many_related`, …: the operations.
* `agrees_iff_related`: doing the same is a relation of this kind, so every operation respects it.
-/

namespace Descent

namespace Parser

variable {ω ω' ε ι α β φ : Type}

/-- On every text the two runs are related. -/
def Related (ρ : Run.Relator ω ω' ε) (p : Parser ω ε α) (p' : Parser ω' ε α) : Prop :=
  ∀ s, ρ.Rel Eq (p.run s) (p'.run s)

/-- The same of two references: what they refer to is related when it is run. -/
def RefRelated (ρ : Run.Relator ω ω' ε) (r : Ref ω ε α) (r' : Ref ω' ε α) : Prop :=
  Related ρ (lazily r) (lazily r')

variable {ρ : Run.Relator ω ω' ε} {p : Parser ω ε α} {p' : Parser ω' ε α} {q : Parser ω ε β}
  {q' : Parser ω' ε β}

theorem succeed_related (a : α) :
    Related ρ (succeed a : Parser ω ε α) (succeed a : Parser ω' ε α) := fun _ => ρ.pure rfl

theorem fail_related : Related ρ (fail : Parser ω ε α) (fail : Parser ω' ε α) :=
  fun _ => ρ.pure rfl

theorem after_related {r : Run ω ε (Parser ω ε α)} {r' : Run ω' ε (Parser ω' ε α)}
    (h : ρ.Rel (Related ρ) r r') : Related ρ (after r) (after r') :=
  fun s => ρ.bind h fun _ _ h => h s

theorem bind_related {f : α → Run ω ε (Parser ω ε β)} {f' : α → Run ω' ε (Parser ω' ε β)}
    (h : Related ρ p p') (hf : ∀ a, ρ.Rel (Related ρ) (f a) (f' a)) :
    Related ρ (p.bind f) (p'.bind f') :=
  fun s => ρ.bind_eq (h s) fun o => by
    cases o with
    | success a rest => exact after_related (hf a) rest
    | failure => exact ρ.pure rfl

theorem map_related {f : α → Run ω ε β} {f' : α → Run ω' ε β} (h : Related ρ p p')
    (hf : ∀ a, ρ.Rel Eq (f a) (f' a)) : Related ρ (p.map f) (p'.map f') :=
  fun s => ρ.bind_eq (h s) fun o => by
    cases o with
    | success a rest => exact ρ.bind_eq (hf a) fun _ => ρ.pure rfl
    | failure => exact ρ.pure rfl

theorem ap_related {app : φ → α → Run ω ε β} {app' : φ → α → Run ω' ε β} {u : Parser ω ε φ}
    {u' : Parser ω' ε φ} (hu : Related ρ u u') (h : Related ρ p p')
    (happ : ∀ f a, ρ.Rel Eq (app f a) (app' f a)) : Related ρ (ap app u p) (ap app' u' p') :=
  bind_related hu fun f => ρ.pure (map_related h (happ f))

/-- The further parsers come from one list, in two ways. -/
theorem liftAs_related {app : α → α → Run ω ε α} {app' : α → α → Run ω' ε α} {f : α} {l : List ι}
    {g : ι → Parser ω ε α} {g' : ι → Parser ω' ε α} (happ : ∀ f a, ρ.Rel Eq (app f a) (app' f a))
    (h : Related ρ p p') (hl : ∀ i ∈ l, Related ρ (g i) (g' i)) :
    Related ρ (liftAs app f p (l.map g)) (liftAs app' f p' (l.map g')) := by
  unfold liftAs
  generalize hu : p.map (app f) = u
  generalize hu' : p'.map (app' f) = u'
  have h : Related ρ u u' := hu ▸ hu' ▸ map_related h (happ f)
  clear hu hu'
  induction l generalizing u u' with
  | nil => exact h
  | cons i l ih =>
    obtain ⟨hi, hrest⟩ := List.forall_mem_cons.1 hl
    exact ih hrest _ _ (ap_related h hi happ)

theorem keepRight_related (h : Related ρ p p') (k : Related ρ q q') :
    Related ρ (p.keepRight q) (p'.keepRight q') := bind_related h fun _ => ρ.pure k

theorem keepLeft_related (h : Related ρ p p') (k : Related ρ q q') :
    Related ρ (p.keepLeft q) (p'.keepLeft q') :=
  bind_related h fun _ => ρ.pure (map_related k fun _ => ρ.pure rfl)

theorem ready_related (h : Related ρ p p') : RefRelated ρ (.ready p) (.ready p') := by
  unfold RefRelated
  rwa [lazily_ready, lazily_ready]

theorem deferred_related {r : Run ω ε (Parser ω ε α)} {r' : Run ω' ε (Parser ω' ε α)}
    (h : ρ.Rel (Related ρ) r r') : RefRelated ρ (.deferred r) (.deferred r') := after_related h

theorem orElse_related {r : Ref ω ε α} {r' : Ref ω' ε α} (h : Related ρ p p')
    (k : RefRelated ρ r r') : Related ρ (p.orElse r) (p'.orElse r') :=
  fun s => ρ.bind_eq (h s) fun o => by
    cases o with
    | success a rest => exact ρ.pure rfl
    | failure => exact k s

/-- A longer choice is one of two, with the rest of it in the second place. -/
theorem firstOf_cons_related {r : Ref ω ε α} {r' : Ref ω' ε α} {rs : List (Ref ω ε α)}
    {rs' : List (Ref ω' ε α)} (h : RefRelated ρ r r') (hs : Related ρ (firstOf rs) (firstOf rs')) :
    Related ρ (firstOf (r :: rs)) (firstOf (r' :: rs')) := by
  rw [firstOf_cons, firstOf_cons]
  exact orElse_related h (ready_related hs)

theorem firstOf_related {l : List ι} {g : ι → Ref ω ε α} {g' : ι → Ref ω' ε α}
    (hl : ∀ i ∈ l, RefRelated ρ (g i) (g' i)) :
    Related ρ (firstOf (l.map g)) (firstOf (l.map g')) := by
  induction l with
  | nil => exact fail_related
  | cons i l ih =>
    obtain ⟨hi, hrest⟩ := List.forall_mem_cons.1 hl
    exact firstOf_cons_related hi (ih hrest)

theorem many_related (h : Related ρ p p') : Related ρ (many p) (many p') := fun s =>
  ρ.loop (R := Eq) (S := Eq) (fun st st' e => by
    subst e
    exact ρ.bind_eq (h st.2) fun o => by
      cases o with
      | success a rest => exact ρ.pure (.inl rfl)
      | failure => exact ρ.pure (.inr rfl)) rfl

theorem many1_related (h : Related ρ p p') : Related ρ (many1 p) (many1 p') :=
  fun s => ρ.bind_eq (many_related h s) fun o => by
    match o with
    | .success [] _ => exact ρ.pure rfl
    | .success (_ :: _) _ => exact ρ.pure rfl
    | .failure => exact ρ.pure rfl

theorem logInput_related {o : Text → Run ω ε Unit} {o' : Text → Run ω' ε Unit}
    (ho : ∀ s, ρ.Rel Eq (o s) (o' s)) (h : Related ρ p p') :
    Related ρ (logInput o p) (logInput o' p') :=
  fun s => ρ.bind_eq (ho s) fun _ => h s

theorem tap_related {o : Text → Run ω ε Unit} {o' : Text → Run ω' ε Unit}
    (ho : ∀ s, ρ.Rel Eq (o s) (o' s)) : Related ρ (tap o) (tap o') :=
  fun s => ρ.bind_eq (ho s) fun _ => ρ.pure rfl

/-! ## Characters -/

theorem anyChar_related : Related ρ (anyChar : Parser ω ε Char) anyChar := fun s => by
  cases s with
  | nil => exact ρ.pure rfl
  | cons c s => exact ρ.pure rfl

theorem peek_related : Related ρ (peek : Parser ω ε Text) peek := fun _ => ρ.pure rfl

theorem satisfy_related {test : Char → Run ω ε Bool} {test' : Char → Run ω' ε Bool}
    (h : ∀ c, ρ.Rel Eq (test c) (test' c)) : Related ρ (satisfy test) (satisfy test') :=
  bind_related anyChar_related fun c => ρ.bind_eq (h c) fun b => by
    cases b with
    | true => exact ρ.pure (succeed_related c)
    | false => exact ρ.pure fail_related

theorem oneOf_related (test : Char → Bool) :
    Related ρ (oneOf test : Parser ω ε Char) (oneOf test) := satisfy_related fun _ => ρ.pure rfl

theorem letterOrDigit_related : Related ρ (letterOrDigit : Parser ω ε Char) letterOrDigit :=
  orElse_related (oneOf_related _) (deferred_related (ρ.pure (oneOf_related _)))

theorem digitValue_related : Related ρ (digitValue : Parser ω ε Nat) digitValue :=
  map_related (oneOf_related _) fun _ => ρ.pure rfl

theorem literal_related (l : Text) : Related ρ (literal l : Parser ω ε Text) (literal l) :=
  fun s => by
    rw [literal_run, literal_run]
    by_cases h : s.take l.length = l
    · rw [if_pos h, if_pos h]
      exact ρ.pure rfl
    · rw [if_neg h, if_neg h]
      exact ρ.pure rfl

theorem lexeme_related (h : Related ρ p p') : Related ρ (lexeme p) (lexeme p') := by
  have hblanks : Related ρ (skipBlanks : Parser ω ε Text) skipBlanks :=
    many_related (oneOf_related _)
  refine ap_related (ap_related (map_related hblanks fun _ => ρ.pure rfl) h fun _ _ => ρ.pure rfl)
    hblanks fun _ _ => ρ.pure rfl

/-! ## Doing the same -/

/-- Parsers that do the same are related, by the relation between runs that do the same. -/
theorem agrees_iff_related {p p' : Parser ω ε α} :
    p.Agrees p' ↔ Related (.agree Run.emit Run.emit) p p' := by
  have hrun (s : Text) : (Run.Relator.agree Run.emit Run.emit).Rel Eq (p.run s) (p'.run s) ↔
      (p.run s).Agrees (p'.run s) := by
    rw [Run.Relator.agree_eq, Run.translate_emit, Run.translate_emit]
  exact forall_congr' fun s => (hrun s).symm

theorem Agrees.related {p p' : Parser ω ε α} (h : p.Agrees p') :
    Related (.agree Run.emit Run.emit) p p' := agrees_iff_related.1 h

theorem Related.agrees {p p' : Parser ω ε α} (h : Related (.agree Run.emit Run.emit) p p') :
    p.Agrees p' := agrees_iff_related.2 h

theorem bind_agrees {f f' : α → Run ω ε (Parser ω ε β)} {p p' : Parser ω ε α} (h : p.Agrees p')
    (hf : ∀ a, (after (f a)).Agrees (after (f' a))) : (p.bind f).Agrees (p'.bind f') := by
  intro s
  rw [bind_run, bind_run]
  refine (h s).bind fun o => ?_
  cases o with
  | success a rest => exact hf a rest
  | failure => exact .refl _

theorem map_agrees {f f' : α → Run ω ε β} {p p' : Parser ω ε α} (h : p.Agrees p')
    (hf : ∀ a, (f a).Agrees (f' a)) : (p.map f).Agrees (p'.map f') := by
  intro s
  rw [map_run, map_run]
  refine (h s).bind fun o => ?_
  cases o with
  | success a rest => exact (hf a).bind fun _ => .refl _
  | failure => exact .refl _

/-- A run without effects may be left out before a parser. -/
theorem after_agrees {r : Run ω ε α} {a : α} (h : r.Agrees (pure a)) (q : α → Parser ω ε β) :
    (after (r >>= fun a => pure (q a))).Agrees (q a) := by
  intro s
  rw [after_run, bind_assoc]
  refine (h.bind fun _ => .refl _).trans (.of_eq ?_)
  rw [pure_bind, pure_bind]

end Parser

end Descent
