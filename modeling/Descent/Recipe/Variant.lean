import Descent.Recipe.Basic
import Descent.Parser.Related

/-!
# Variants of a recipe

A change to a program replaces some of its parts and keeps all others. Here the parts that may be
replaced are watched ones, so that there is an observer to say which they are.

* `Change κ`: the observers that are dropped, and those whose parser is deferred, and to what.
* `Variant c r r'`: the second recipe is the first with the change `c` made in it.
-/

namespace Descent

/-- **A change to recipes.** -/
structure Change (κ : Type) where
  /-- Parsers watched by this observer may be left unwatched. -/
  bare : κ → Prop
  /-- Parsers watched by the observer may be replaced by a deferred reference that yields the
  recipe. -/
  defer : κ → κ → Recipe κ → Prop

/-- Nothing is changed. -/
def Change.none {κ : Type} : Change κ := ⟨fun _ => False, fun _ _ _ => False⟩

variable {κ : Type}

/-- A recipe without parts. -/
def Recipe.isLeaf : Recipe κ → Bool
  | .bind .. | .map .. | .ap .. | .liftAs .. | .keepRight .. | .keepLeft .. | .lazily _ | .orElse ..
  | .firstOf _ | .many _ | .many1 _ | .lexeme _ | .logInput .. => false
  | _ => true

mutual

/-- **The same recipe after a change.** -/
inductive Variant (c : Change κ) : Recipe κ → Recipe κ → Prop
  | leaf {r : Recipe κ} (h : r.isLeaf = true) : Variant c r r
  | bind {p p' : Recipe κ} (f : κ) (hp : Variant c p p') : Variant c (.bind p f) (.bind p' f)
  | map {p p' : Recipe κ} (f : κ) (hp : Variant c p p') : Variant c (.map f p) (.map f p')
  | ap {p p' q q' : Recipe κ} (hp : Variant c p p') (hq : Variant c q q') :
      Variant c (.ap p q) (.ap p' q')
  /-- Further parsers before and after the change, in pairs. -/
  | liftAs {p p' : Recipe κ} {qs : List (Recipe κ × Recipe κ)} (f : κ) (hp : Variant c p p')
      (hs : ∀ q ∈ qs, Variant c q.1 q.2) :
      Variant c (.liftAs f p (qs.map Prod.fst)) (.liftAs f p' (qs.map Prod.snd))
  | keepRight {p p' q q' : Recipe κ} (hp : Variant c p p') (hq : Variant c q q') :
      Variant c (.keepRight p q) (.keepRight p' q')
  | keepLeft {p p' q q' : Recipe κ} (hp : Variant c p p') (hq : Variant c q q') :
      Variant c (.keepLeft p q) (.keepLeft p' q')
  | lazily {r r' : RecipeRef κ} (hr : RefVariant c r r') : Variant c (.lazily r) (.lazily r')
  | orElse {p p' : Recipe κ} {r r' : RecipeRef κ} (hp : Variant c p p') (hr : RefVariant c r r') :
      Variant c (.orElse p r) (.orElse p' r')
  | firstOf {qs : List (RecipeRef κ × RecipeRef κ)} (hs : ∀ q ∈ qs, RefVariant c q.1 q.2) :
      Variant c (.firstOf (qs.map Prod.fst)) (.firstOf (qs.map Prod.snd))
  | many {p p' : Recipe κ} (hp : Variant c p p') : Variant c (.many p) (.many p')
  | many1 {p p' : Recipe κ} (hp : Variant c p p') : Variant c (.many1 p) (.many1 p')
  | lexeme {p p' : Recipe κ} (hp : Variant c p p') : Variant c (.lexeme p) (.lexeme p')
  | logInput {p p' : Recipe κ} (o : κ) (hp : Variant c p p') :
      Variant c (.logInput o p) (.logInput o p')
  /-- The observer is dropped. -/
  | bare {o : κ} {p p' : Recipe κ} (ho : c.bare o) (hp : Variant c p p') :
      Variant c (.logInput o p) p'
  /-- The observer is dropped and the parser deferred. -/
  | defer {o x : κ} {p p' : Recipe κ} (ho : c.defer o x p') (hp : Variant c p p') :
      Variant c (.logInput o p) (.lazily (.deferred x))

/-- The same reference after a change. -/
inductive RefVariant (c : Change κ) : RecipeRef κ → RecipeRef κ → Prop
  | ready {p p' : Recipe κ} (hp : Variant c p p') : RefVariant c (.ready p) (.ready p')
  | deferred (x : κ) : RefVariant c (.deferred x) (.deferred x)
  /-- A parser at hand gives way to a deferred reference to it. -/
  | defer {o x : κ} {p p' : Recipe κ} (ho : c.defer o x p') (hp : Variant c p p') :
      RefVariant c (.ready (.logInput o p)) (.deferred x)

end

variable {c : Change κ}

theorem Variant.liftAs_refl {f : κ} {p : Recipe κ} {ps : List (Recipe κ)} (hp : Variant c p p)
    (hs : ∀ q ∈ ps, Variant c q q) : Variant c (.liftAs f p ps) (.liftAs f p ps) := by
  have hpairs : ∀ q ∈ ps.map fun q => (q, q), Variant c q.1 q.2 := List.forall_mem_map.2 hs
  simpa [Function.comp_def] using Variant.liftAs f hp hpairs

theorem Variant.firstOf_refl {rs : List (RecipeRef κ)} (hs : ∀ r ∈ rs, RefVariant c r r) :
    Variant c (.firstOf rs) (.firstOf rs) := by
  have hpairs : ∀ q ∈ rs.map fun r => (r, r), RefVariant c q.1 q.2 := List.forall_mem_map.2 hs
  simpa [Function.comp_def] using Variant.firstOf hpairs

mutual

/-- A recipe in which nothing is changed is a variant of itself. -/
theorem Variant.refl : ∀ r : Recipe κ, Variant c r r
  | .anyChar | .peek | .letter | .digit | .letterOrDigit | .space | .blank | .digitValue
  | .satisfy _ | .char _ | .literal _ | .succeed _ | .fail | .tap _ | .custom _ => .leaf rfl
  | .bind p f => .bind f (Variant.refl p)
  | .map f p => .map f (Variant.refl p)
  | .ap p q => .ap (Variant.refl p) (Variant.refl q)
  | .liftAs _ p ps => .liftAs_refl (Variant.refl p) (Variant.refl_all ps)
  | .keepRight p q => .keepRight (Variant.refl p) (Variant.refl q)
  | .keepLeft p q => .keepLeft (Variant.refl p) (Variant.refl q)
  | .lazily r => .lazily (RefVariant.refl r)
  | .orElse p r => .orElse (Variant.refl p) (RefVariant.refl r)
  | .firstOf rs => .firstOf_refl (RefVariant.refl_all rs)
  | .many p => .many (Variant.refl p)
  | .many1 p => .many1 (Variant.refl p)
  | .lexeme p => .lexeme (Variant.refl p)
  | .logInput o p => .logInput o (Variant.refl p)

theorem Variant.refl_all : ∀ ps : List (Recipe κ), ∀ p ∈ ps, Variant c p p
  | [] => List.forall_mem_nil _
  | p :: ps => List.forall_mem_cons.2 ⟨Variant.refl p, Variant.refl_all ps⟩

theorem RefVariant.refl : ∀ r : RecipeRef κ, RefVariant c r r
  | .ready p => .ready (Variant.refl p)
  | .deferred x => .deferred x

theorem RefVariant.refl_all : ∀ rs : List (RecipeRef κ), ∀ r ∈ rs, RefVariant c r r
  | [] => List.forall_mem_nil _
  | r :: rs => List.forall_mem_cons.2 ⟨RefVariant.refl r, RefVariant.refl_all rs⟩

end

mutual

/-- Where nothing is changed there is no other variant. -/
theorem Variant.eq_of_none : ∀ {r r' : Recipe κ}, Variant .none r r' → r = r'
  | _, _, .leaf _ => rfl
  | _, _, .bind f hp => congrArg (Recipe.bind · f) hp.eq_of_none
  | _, _, .map f hp => congrArg (Recipe.map f) hp.eq_of_none
  | _, _, .ap hp hq => congr (congrArg Recipe.ap hp.eq_of_none) hq.eq_of_none
  | _, _, .liftAs f hp hs => congr (congrArg (Recipe.liftAs f) hp.eq_of_none)
    (List.map_congr_left fun q hq => (hs q hq).eq_of_none)
  | _, _, .keepRight hp hq => congr (congrArg Recipe.keepRight hp.eq_of_none) hq.eq_of_none
  | _, _, .keepLeft hp hq => congr (congrArg Recipe.keepLeft hp.eq_of_none) hq.eq_of_none
  | _, _, .lazily hr => congrArg Recipe.lazily hr.eq_of_none
  | _, _, .orElse hp hr => congr (congrArg Recipe.orElse hp.eq_of_none) hr.eq_of_none
  | _, _, .firstOf hs => congrArg Recipe.firstOf
    (List.map_congr_left fun q hq => (hs q hq).eq_of_none)
  | _, _, .many hp => congrArg Recipe.many hp.eq_of_none
  | _, _, .many1 hp => congrArg Recipe.many1 hp.eq_of_none
  | _, _, .lexeme hp => congrArg Recipe.lexeme hp.eq_of_none
  | _, _, .logInput o hp => congrArg (Recipe.logInput o) hp.eq_of_none
  | _, _, .bare ho _ => ho.elim
  | _, _, .defer ho _ => ho.elim

theorem RefVariant.eq_of_none : ∀ {r r' : RecipeRef κ}, RefVariant .none r r' → r = r'
  | _, _, .ready hp => congrArg RecipeRef.ready hp.eq_of_none
  | _, _, .deferred _ => rfl
  | _, _, .defer ho _ => ho.elim

end

end Descent
