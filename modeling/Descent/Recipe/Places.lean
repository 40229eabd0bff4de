import Descent.Recipe.Denote

/-!
# Places in a program

A program consists of the recipe at hand and of the recipes that its functions and references come
up with. Its places are the parts of all these, and the parser at a place may be run often, on many
texts, or never.

* `Place κ`: a part of the recipe at hand, or of the recipe that a value stands for.
* `Recipe.watched S`: the recipe with observers put at the places that `S` says. `Host.watchedBy S`:
  the program in which this is done to each recipe that comes up.
* `Host.spied h go spy`: what a recipe does, where `spy` is told of every place and may do something
  of its own when the parser there is run.
* `denote_watched`: observers in a recipe are one way to spy. `spied_related`: related programs that
  are spied on in related ways (`SpiedAlike`).
* `Host.hear`: the program that announces every run of every place, with the text it is run on.
-/

namespace Descent

/-- **A place in a program.** A part of a recipe is found by the numbers of the parts that lead to
it, and a recipe that comes up by the value that stands for it. -/
structure Place (κ : Type) where
  /-- The value that stands for the recipe. There is none for the recipe at hand. -/
  root : Option κ
  path : List Nat

namespace Place

variable {κ : Type}

/-- The recipe at hand. -/
def top : Place κ := ⟨none, []⟩

/-- The recipe that the value stands for. -/
def of (y : κ) : Place κ := ⟨some y, []⟩

def part (i : Place κ) (n : Nat) : Place κ := { i with path := i.path ++ [n] }

end Place

/-- An observer, and in which of two ways it is put before a parser. -/
inductive Post (κ : Type) where
  | logInput (observer : κ)
  | tap (observer : κ)

namespace Post

variable {κ : Type}

def observer : Post κ → κ
  | logInput o => o
  | tap o => o

/-- The recipe with the observer put before it. -/
def attach : Post κ → Recipe κ → Recipe κ
  | logInput o, r => .logInput o r
  | tap o, r => .keepRight (.tap o) r

end Post

variable {ω ω' ε κ : Type}

namespace Recipe

/-- The recipe with the observer put before it, if there is one. -/
def attach? (post? : Option (Post κ)) (r : Recipe κ) : Recipe κ :=
  match post? with
  | none => r
  | some post => post.attach r

section

variable (S : Place κ → Option (Post κ))

mutual

/-- **The recipe with observers** at the places that `S` says, where `i` is the place of the whole.
-/
def watched (r : Recipe κ) (i : Place κ) : Recipe κ :=
  attach? (S i) (match r with
    | .bind p f => .bind (watched p (i.part 0)) f
    | .map f p => .map f (watched p (i.part 0))
    | .ap p q => .ap (watched p (i.part 0)) (watched q (i.part 1))
    | .liftAs f p ps => .liftAs f (watched p (i.part 0)) (watchedAll ps i 1)
    | .keepRight p q => .keepRight (watched p (i.part 0)) (watched q (i.part 1))
    | .keepLeft p q => .keepLeft (watched p (i.part 0)) (watched q (i.part 1))
    | .lazily r => .lazily (watchedRef r (i.part 0))
    | .orElse p r => .orElse (watched p (i.part 0)) (watchedRef r (i.part 1))
    | .firstOf rs => .firstOf (watchedRefs rs i 0)
    | .many p => .many (watched p (i.part 0))
    | .many1 p => .many1 (watched p (i.part 0))
    | .lexeme p => .lexeme (watched p (i.part 0))
    | .logInput o p => .logInput o (watched p (i.part 0))
    | r => r)
termination_by structural r

/-- The same of the parts of `i` from the `n`-th on. -/
def watchedAll (ps : List (Recipe κ)) (i : Place κ) (n : Nat) : List (Recipe κ) :=
  match ps with
  | [] => []
  | p :: ps => watched p (i.part n) :: watchedAll ps i (n + 1)
termination_by structural ps

/-- A parser at hand is a part. What is deferred comes up as a value. -/
def watchedRef (r : RecipeRef κ) (i : Place κ) : RecipeRef κ :=
  match r with
  | .ready p => .ready (watched p i)
  | .deferred x => .deferred x
termination_by structural r

def watchedRefs (rs : List (RecipeRef κ)) (i : Place κ) (n : Nat) : List (RecipeRef κ) :=
  match rs with
  | [] => []
  | r :: rs => watchedRef r (i.part n) :: watchedRefs rs i (n + 1)
termination_by structural rs

end

end

/-! ## No observers -/

mutual

/-- Without observers the recipe stays as it is. -/
theorem watched_none : ∀ (r : Recipe κ) (i : Place κ), r.watched (fun _ => none) i = r
  | .bind p f, _ => congrArg (Recipe.bind · f) (watched_none p _)
  | .map f p, _ => congrArg (Recipe.map f) (watched_none p _)
  | .ap p q, _ => congr (congrArg Recipe.ap (watched_none p _)) (watched_none q _)
  | .liftAs f p ps, i => congr (congrArg (Recipe.liftAs f) (watched_none p _))
    (watchedAll_none ps i 1)
  | .keepRight p q, _ => congr (congrArg Recipe.keepRight (watched_none p _)) (watched_none q _)
  | .keepLeft p q, _ => congr (congrArg Recipe.keepLeft (watched_none p _)) (watched_none q _)
  | .lazily r, _ => congrArg Recipe.lazily (watchedRef_none r _)
  | .orElse p r, _ => congr (congrArg Recipe.orElse (watched_none p _)) (watchedRef_none r _)
  | .firstOf rs, i => congrArg Recipe.firstOf (watchedRefs_none rs i 0)
  | .many p, _ => congrArg Recipe.many (watched_none p _)
  | .many1 p, _ => congrArg Recipe.many1 (watched_none p _)
  | .lexeme p, _ => congrArg Recipe.lexeme (watched_none p _)
  | .logInput o p, _ => congrArg (Recipe.logInput o) (watched_none p _)
  | .anyChar, _ | .peek, _ | .letter, _ | .digit, _ | .letterOrDigit, _ | .space, _ | .blank, _
  | .digitValue, _ | .satisfy _, _ | .char _, _ | .literal _, _ | .succeed _, _ | .fail, _
  | .tap _, _ | .custom _, _ => rfl

theorem watchedAll_none : ∀ (ps : List (Recipe κ)) (i : Place κ) (n : Nat),
    watchedAll (fun _ => none) ps i n = ps
  | [], _, _ => rfl
  | p :: ps, i, n => congr (congrArg List.cons (watched_none p _)) (watchedAll_none ps i (n + 1))

theorem watchedRef_none : ∀ (r : RecipeRef κ) (i : Place κ), watchedRef (fun _ => none) r i = r
  | .ready p, i => congrArg RecipeRef.ready (watched_none p i)
  | .deferred _, _ => rfl

theorem watchedRefs_none : ∀ (rs : List (RecipeRef κ)) (i : Place κ) (n : Nat),
    watchedRefs (fun _ => none) rs i n = rs
  | [], _, _ => rfl
  | r :: rs, i, n => congr (congrArg List.cons (watchedRef_none r _))
    (watchedRefs_none rs i (n + 1))

end

end Recipe

namespace Host

open Recipe (denote denoteAll denoteRef denoteRefs called observer)

/-- **The program with observers** at the places that `S` says, in the recipes that come up. -/
def watchedBy (h : Host ω ε κ) (S : Place κ → Option (Post κ)) : Host ω ε κ :=
  { h with recipe := fun y => (h.recipe y).map fun r => r.watched S (.of y) }

theorem watchedBy_none (h : Host ω ε κ) : h.watchedBy (fun _ => none) = h := by
  have hrecipe : (fun y => (h.recipe y).map fun r => r.watched (fun _ => none) (.of y)) =
      h.recipe := by
    funext y
    simp only [Recipe.watched_none]
    cases h.recipe y <;> rfl
  unfold watchedBy
  rw [hrecipe]

section

variable (h : Host ω ε κ) (go : κ → Recipe κ → Parser ω ε κ)
  (spy : Place κ → Parser ω ε κ → Parser ω ε κ)

mutual

/-- **What a recipe does when it is spied on,** where `go y` stands for the recipes that come up as
the value `y`. -/
def spied (r : Recipe κ) (i : Place κ) : Parser ω ε κ :=
  spy i (match r with
    | .bind p f => Parser.bind (spied p (i.part 0)) fun x => do
      let y ← h.apply f x
      called h (go y) y
    | .map f p => Parser.map (h.apply f) (spied p (i.part 0))
    | .ap p q => Parser.ap h.apply (spied p (i.part 0)) (spied q (i.part 1))
    | .liftAs f p ps => Parser.liftAs h.apply f (spied p (i.part 0)) (spiedAll ps i 1)
    | .keepRight p q => Parser.keepRight (spied p (i.part 0)) (spied q (i.part 1))
    | .keepLeft p q => Parser.keepLeft (spied p (i.part 0)) (spied q (i.part 1))
    | .lazily r => Parser.lazily (spiedRef r (i.part 0))
    | .orElse p r => Parser.orElse (spied p (i.part 0)) (spiedRef r (i.part 1))
    | .firstOf rs => Parser.firstOf (spiedRefs rs i 0)
    | .many p => Recipe.ofList h (.many (spied p (i.part 0)))
    | .many1 p => Recipe.ofList h (.many1 (spied p (i.part 0)))
    | .lexeme p => Parser.lexeme (spied p (i.part 0))
    | .logInput o p => Parser.logInput (observer h o) (spied p (i.part 0))
    -- without parts, and so nothing comes up
    | r => denote h (fun _ => .fail) r)
termination_by structural r

def spiedAll (ps : List (Recipe κ)) (i : Place κ) (n : Nat) : List (Parser ω ε κ) :=
  match ps with
  | [] => []
  | p :: ps => spied p (i.part n) :: spiedAll ps i (n + 1)
termination_by structural ps

def spiedRef (r : RecipeRef κ) (i : Place κ) : Ref ω ε κ :=
  match r with
  | .ready p => .ready (spied p i)
  | .deferred x => .deferred do
    let y ← h.force x
    called h (go y) y
termination_by structural r

def spiedRefs (rs : List (RecipeRef κ)) (i : Place κ) (n : Nat) : List (Ref ω ε κ) :=
  match rs with
  | [] => []
  | r :: rs => spiedRef r (i.part n) :: spiedRefs rs i (n + 1)
termination_by structural rs

end

theorem spiedAll_eq_map (ps : List (Recipe κ)) (i : Place κ) (n : Nat) :
    spiedAll h go spy ps i n = (ps.zipIdx n).map fun q => spied h go spy q.1 (i.part q.2) := by
  induction ps generalizing n with
  | nil => rfl
  | cons p ps ih => rw [spiedAll, ih, List.zipIdx_cons, List.map_cons]

theorem spiedRefs_eq_map (rs : List (RecipeRef κ)) (i : Place κ) (n : Nat) :
    spiedRefs h go spy rs i n = (rs.zipIdx n).map fun q => spiedRef h go spy q.1 (i.part q.2) := by
  induction rs generalizing n with
  | nil => rfl
  | cons r rs ih => rw [spiedRefs, ih, List.zipIdx_cons, List.map_cons]

end

/-- The parser, watched by the observer at the place if there is one. -/
def posted (h : Host ω ε κ) (S : Place κ → Option (Post κ)) (i : Place κ) (p : Parser ω ε κ) :
    Parser ω ε κ :=
  match S i with
  | none => p
  | some post => Parser.logInput (observer h post.observer) p

section

variable {h : Host ω ε κ} {S : Place κ → Option (Post κ)} {go : Recipe κ → Parser ω ε κ}

/-- In either of the two ways an observer is put before a parser it shows the text and then the
parser is run. -/
theorem denote_attach? (i : Place κ) (r : Recipe κ) :
    denote h go (Recipe.attach? (S i) r) = posted h S i (denote h go r) := by
  unfold posted
  cases S i with
  | none => rfl
  | some post =>
    cases post with
    | logInput o => rfl
    | tap o =>
      refine Parser.ext (funext fun s => ?_)
      change (Recipe.ofUnit h (.tap (observer h o))).run s >>= _ = observer h o s >>= _
      rw [Recipe.ofUnit, Parser.map_run, Parser.tap_run]
      simp only [bind_assoc, pure_bind]
      rfl

theorem called_watchedBy (y : κ) :
    called (h.watchedBy S) go y = called h (fun q => go (q.watched S (.of y))) y := by
  change Run.ofExcept ((h.recipe y).map _) >>= _ = Run.ofExcept (h.recipe y) >>= _
  cases h.recipe y with
  | ok r => exact (pure_bind ..).trans (pure_bind ..).symm
  | error e => exact (Run.raise_bind e _).trans (Run.raise_bind e _).symm

/-- Watched parts make a watched recipe. -/
theorem denote_watched_of_parts {r q : Recipe κ} {i : Place κ} {p : Parser ω ε κ}
    (hr : r.watched S i = Recipe.attach? (S i) q) (hq : denote (h.watchedBy S) go q = p) :
    denote (h.watchedBy S) go (r.watched S i) = posted h S i p := by
  rw [hr, denote_attach?, hq]
  rfl

/-- What comes up as the value `y` while a watched recipe runs. -/
def comes (S : Place κ → Option (Post κ)) (go : Recipe κ → Parser ω ε κ) (y : κ) (q : Recipe κ) :
    Parser ω ε κ := go (q.watched S (.of y))

mutual

/-- **Observers in a recipe are a way to spy on it.** -/
theorem denote_watched : ∀ (r : Recipe κ) (i : Place κ),
    denote (h.watchedBy S) go (r.watched S i) = spied h (comes S go) (posted h S) r i
  | .bind p f, i => denote_watched_of_parts rfl (congr
    (congrArg Parser.bind (denote_watched p (i.part 0)))
    (funext fun x => congrArg (h.apply f x >>= ·) (funext called_watchedBy)))
  | .map f p, _ => denote_watched_of_parts rfl (congrArg (Parser.map (h.apply f))
    (denote_watched p _))
  | .ap p q, _ => denote_watched_of_parts rfl (congr (congrArg (Parser.ap h.apply)
    (denote_watched p _)) (denote_watched q _))
  | .liftAs f p ps, i => denote_watched_of_parts rfl (congr (congrArg (Parser.liftAs h.apply f)
    (denote_watched p _)) (denoteAll_watched ps i 1))
  | .keepRight p q, _ => denote_watched_of_parts rfl (congr (congrArg Parser.keepRight
    (denote_watched p _)) (denote_watched q _))
  | .keepLeft p q, _ => denote_watched_of_parts rfl (congr (congrArg Parser.keepLeft
    (denote_watched p _)) (denote_watched q _))
  | .lazily r, _ => denote_watched_of_parts rfl (congrArg Parser.lazily (denoteRef_watched r _))
  | .orElse p r, _ => denote_watched_of_parts rfl (congr (congrArg Parser.orElse
    (denote_watched p _)) (denoteRef_watched r _))
  | .firstOf rs, i => denote_watched_of_parts rfl (congrArg Parser.firstOf
    (denoteRefs_watched rs i 0))
  | .many p, _ => denote_watched_of_parts rfl (congrArg (fun p => Recipe.ofList h (.many p))
    (denote_watched p _))
  | .many1 p, _ => denote_watched_of_parts rfl (congrArg (fun p => Recipe.ofList h (.many1 p))
    (denote_watched p _))
  | .lexeme p, _ => denote_watched_of_parts rfl (congrArg Parser.lexeme (denote_watched p _))
  | .logInput o p, _ => denote_watched_of_parts rfl (congrArg (Parser.logInput (observer h o))
    (denote_watched p _))
  | .anyChar, _ | .peek, _ | .letter, _ | .digit, _ | .letterOrDigit, _ | .space, _ | .blank, _
  | .digitValue, _ | .satisfy _, _ | .char _, _ | .literal _, _ | .succeed _, _ | .fail, _
  | .tap _, _ | .custom _, _ => denote_watched_of_parts rfl rfl

theorem denoteAll_watched : ∀ (ps : List (Recipe κ)) (i : Place κ) (n : Nat),
    denoteAll (h.watchedBy S) go (Recipe.watchedAll S ps i n) =
      spiedAll h (comes S go) (posted h S) ps i n
  | [], _, _ => rfl
  | p :: ps, i, n => congr (congrArg List.cons (denote_watched p (i.part n)))
    (denoteAll_watched ps i (n + 1))

theorem denoteRef_watched : ∀ (r : RecipeRef κ) (i : Place κ),
    denoteRef (h.watchedBy S) go (Recipe.watchedRef S r i) =
      spiedRef h (comes S go) (posted h S) r i
  | .ready p, i => congrArg Ref.ready (denote_watched p i)
  | .deferred x, _ => congrArg (fun k => Ref.deferred (h.force x >>= k)) (funext called_watchedBy)

theorem denoteRefs_watched : ∀ (rs : List (RecipeRef κ)) (i : Place κ) (n : Nat),
    denoteRefs (h.watchedBy S) go (Recipe.watchedRefs S rs i n) =
      spiedRefs h (comes S go) (posted h S) rs i n
  | [], _, _ => rfl
  | r :: rs, i, n => congr (congrArg List.cons (denoteRef_watched r (i.part n)))
    (denoteRefs_watched rs i (n + 1))

end

end

/-! ## Related programs -/

section

variable {ρ : Run.Relator ω ω' ε} {h : Host ω ε κ} {h' : Host ω' ε κ}
  {go : κ → Recipe κ → Parser ω ε κ} {go' : κ → Recipe κ → Parser ω' ε κ}
  {spy : Place κ → Parser ω ε κ → Parser ω ε κ} {spy' : Place κ → Parser ω' ε κ → Parser ω' ε κ}

/-- Two programs that differ in nothing are spied on in related ways, and what comes up in them is
related. -/
structure SpiedAlike (ρ : Run.Relator ω ω' ε) (h : Host ω ε κ) (h' : Host ω' ε κ)
    (go : κ → Recipe κ → Parser ω ε κ) (go' : κ → Recipe κ → Parser ω' ε κ)
    (spy : Place κ → Parser ω ε κ → Parser ω ε κ)
    (spy' : Place κ → Parser ω' ε κ → Parser ω' ε κ) : Prop where
  host : Related ρ .none h h'
  comes : ∀ y q, Parser.Related ρ (go y q) (go' y q)
  spy : ∀ i p p', Parser.Related ρ p p' → Parser.Related ρ (spy i p) (spy' i p')

theorem SpiedAlike.called (hs : SpiedAlike ρ h h' go go' spy spy') (y : κ) :
    ρ.Rel (Parser.Related ρ) (called h (go y) y) (called h' (go' y) y) :=
  called_related hs.host (fun q _ hq => hq.eq_of_none ▸ hs.comes y q) y

mutual

/-- **Related programs that are spied on in related ways do related things.** -/
theorem spied_related (hs : SpiedAlike ρ h h' go go' spy spy') : ∀ (r : Recipe κ) (i : Place κ),
    Parser.Related ρ (spied h go spy r i) (spied h' go' spy' r i)
  | .bind p f, _ => hs.spy _ _ _ (Parser.bind_related (spied_related hs p _) fun x =>
    ρ.bind_eq (hs.host.apply f x) hs.called)
  | .map _ p, _ => hs.spy _ _ _ (Parser.map_related (spied_related hs p _) (hs.host.apply _))
  | .ap p q, _ => hs.spy _ _ _ (Parser.ap_related (spied_related hs p _) (spied_related hs q _)
    hs.host.apply)
  | .liftAs f p ps, i => by
    rw [spied, spied, spiedAll_eq_map, spiedAll_eq_map]
    exact hs.spy _ _ _ (Parser.liftAs_related hs.host.apply (spied_related hs p _)
      (spiedAll_related hs ps i 1))
  | .keepRight p q, _ => hs.spy _ _ _ (Parser.keepRight_related (spied_related hs p _)
    (spied_related hs q _))
  | .keepLeft p q, _ => hs.spy _ _ _ (Parser.keepLeft_related (spied_related hs p _)
    (spied_related hs q _))
  | .lazily r, _ => hs.spy _ _ _ (spiedRef_related hs r _)
  | .orElse p r, _ => hs.spy _ _ _ (Parser.orElse_related (spied_related hs p _)
    (spiedRef_related hs r _))
  | .firstOf rs, i => by
    rw [spied, spied, spiedRefs_eq_map, spiedRefs_eq_map]
    exact hs.spy _ _ _ (Parser.firstOf_related (spiedRefs_related hs rs i 0))
  | .many p, _ => hs.spy _ _ _ (value_related (congrFun hs.host.list_eq)
    (Parser.many_related (spied_related hs p _)))
  | .many1 p, _ => hs.spy _ _ _ (value_related (congrFun hs.host.list_eq)
    (Parser.many1_related (spied_related hs p _)))
  | .lexeme p, _ => hs.spy _ _ _ (Parser.lexeme_related (spied_related hs p _))
  | .logInput o p, _ => hs.spy _ _ _ (Parser.logInput_related (observer_related hs.host o)
    (spied_related hs p _))
  | .anyChar, _ | .peek, _ | .letter, _ | .digit, _ | .letterOrDigit, _ | .space, _ | .blank, _
  | .digitValue, _ | .satisfy _, _ | .char _, _ | .literal _, _ | .succeed _, _ | .fail, _
  | .tap _, _ | .custom _, _ => hs.spy _ _ _ (leaf_related hs.host rfl)

theorem spiedAll_related (hs : SpiedAlike ρ h h' go go' spy spy') :
    ∀ (ps : List (Recipe κ)) (i : Place κ) (n : Nat), ∀ q ∈ ps.zipIdx n,
      Parser.Related ρ (spied h go spy q.1 (i.part q.2)) (spied h' go' spy' q.1 (i.part q.2))
  | [], _, _ => List.forall_mem_nil _
  | p :: ps, i, n => List.forall_mem_cons.2
    ⟨spied_related hs p _, spiedAll_related hs ps i (n + 1)⟩

theorem spiedRef_related (hs : SpiedAlike ρ h h' go go' spy spy') :
    ∀ (r : RecipeRef κ) (i : Place κ),
      Parser.RefRelated ρ (spiedRef h go spy r i) (spiedRef h' go' spy' r i)
  | .ready p, i => Parser.ready_related (spied_related hs p i)
  | .deferred x, _ => Parser.deferred_related (ρ.bind_eq (hs.host.force x) hs.called)

theorem spiedRefs_related (hs : SpiedAlike ρ h h' go go' spy spy') :
    ∀ (rs : List (RecipeRef κ)) (i : Place κ) (n : Nat), ∀ q ∈ rs.zipIdx n,
      Parser.RefRelated ρ (spiedRef h go spy q.1 (i.part q.2))
        (spiedRef h' go' spy' q.1 (i.part q.2))
  | [], _, _ => List.forall_mem_nil _
  | r :: rs, i, n => List.forall_mem_cons.2
    ⟨spiedRef_related hs r _, spiedRefs_related hs rs i (n + 1)⟩

end

end

/-! ## Announcing -/

section

/-- The parser, which announces each run of it. -/
def announcingRuns (i : Place κ) (p : Parser (ω ⊕ Place κ × Text) ε κ) :
    Parser (ω ⊕ Place κ × Text) ε κ :=
  Parser.logInput (fun s => Run.emit (.inr (i, s))) p

variable (h : Host (ω ⊕ Place κ × Text) ε κ)

/-- What a recipe does while the program announces its runs, where `self` stands for the recipes at
other places. -/
def hearStep (self : Place κ × Recipe κ → Parser (ω ⊕ Place κ × Text) ε κ)
    (a : Place κ × Recipe κ) : Parser (ω ⊕ Place κ × Text) ε κ :=
  spied h (fun y q => self (.of y, q)) announcingRuns a.2 a.1

theorem hearStep_monotonic : Parser.Monotonic (hearStep h) := by
  intro n self self' hself a
  have hspy (i : Place κ) (p p' : Parser (ω ⊕ Place κ × Text) ε κ)
      (hp : Parser.Related (.belowAt n) p p') :
      Parser.Related (.belowAt n) (announcingRuns i p) (announcingRuns i p') :=
    Parser.logInput_related (fun _ => Run.belowAt_self) hp
  exact spied_related ⟨BelowAt.refl.related, fun y q => hself (.of y, q), hspy⟩ a.2 a.1

/-- **The program that announces every run of every place,** with the text it is run on, right
before the run. -/
def hear (a : Place κ × Recipe κ) : Parser (ω ⊕ Place κ × Text) ε κ :=
  Parser.fix (hearStep h) (hearStep_monotonic h) a

/-- The same with what comes up unfolded `n` times. -/
def hearAt (n : Nat) (a : Place κ × Recipe κ) : Parser (ω ⊕ Place κ × Text) ε κ :=
  ⟨fun s => Run.fixAt (Parser.onTexts (hearStep h)) n (a, s)⟩

theorem hearAt_succ (n : Nat) (a : Place κ × Recipe κ) :
    hearAt h (n + 1) a = hearStep h (hearAt h n) a := rfl

end

end Host

end Descent
