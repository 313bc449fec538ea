/-!
# Backtracking matching with captures

Patterns are sequences of one-symbol classes, their greedy and lazy repetitions,
and capturing groups. The matcher tries the alternatives in Perl's order and
keeps the first that lets the rest of the pattern succeed. The derivations say
which decompositions of a text a pattern admits at all; a text with only one
decomposition is captured that way whatever the order of the search.
-/

namespace Backtracking

inductive Pattern (κ : Type) where
  | empty : Pattern κ
  | one : κ → Pattern κ
  | greedy : κ → Pattern κ
  | reluctant : κ → Pattern κ
  | seq : Pattern κ → Pattern κ → Pattern κ
  | group : Pattern κ → Pattern κ
  deriving DecidableEq, Repr

/-- A pattern written as the list of its parts. -/
def Pattern.ofList {κ : Type} : List (Pattern κ) → Pattern κ
  | [] => .empty
  | p :: ps => .seq p (ofList ps)

/-- `x+` is one symbol and then the greedy repetition. -/
def Pattern.plus {κ : Type} (c : κ) : Pattern κ := .seq (.one c) (.greedy c)

section
variable {κ α β : Type} (admits : κ → α → Bool)

/-- `x*`: the longest run first. -/
def greedyRun (c : κ) (k : List α → Option β) : List α → Option β
  | [] => k []
  | a :: s => if admits c a then (greedyRun c k s).or (k (a :: s)) else k (a :: s)

/-- `x*?`: the shortest run first. -/
def reluctantRun (c : κ) (k : List α → Option β) : List α → Option β
  | [] => k []
  | a :: s => (k (a :: s)).or (if admits c a then reluctantRun c k s else none)

/-- The continuation receives the captures and the text that is left; a failing
continuation sends the search back to the next alternative. -/
def matchWith : Pattern κ → List α → (List (List α) → List α → Option β) → Option β
  | .empty, s, k => k [] s
  | .one _, [], _ => none
  | .one c, a :: s, k => if admits c a then k [] s else none
  | .greedy c, s, k => greedyRun admits c (k []) s
  | .reluctant c, s, k => reluctantRun admits c (k []) s
  | .seq p q, s, k => matchWith p s fun cs t => matchWith q t fun ds u => k (cs ++ ds) u
  | .group p, s, k => matchWith p s fun cs t => k (s.take (s.length - t.length) :: cs) t

/-- `regex_match`: the captures of the first alternative that uses the whole text. -/
def regexMatch (p : Pattern κ) (s : List α) : Option (List (List α)) :=
  matchWith admits p s fun cs rest => if rest.isEmpty then some cs else none

/-- `Derives p s cs`: the text decomposes along the pattern with these captures,
in the order of the opening parentheses. -/
inductive Derives : Pattern κ → List α → List (List α) → Prop where
  | empty : Derives .empty [] []
  | one {c : κ} {a : α} : admits c a → Derives (.one c) [a] []
  | greedy {c : κ} {s : List α} : (∀ a ∈ s, admits c a) → Derives (.greedy c) s []
  | reluctant {c : κ} {s : List α} : (∀ a ∈ s, admits c a) → Derives (.reluctant c) s []
  | seq {p q : Pattern κ} {s t : List α} {cs ds : List (List α)} :
      Derives p s cs → Derives q t ds → Derives (.seq p q) (s ++ t) (cs ++ ds)
  | group {p : Pattern κ} {s : List α} {cs : List (List α)} :
      Derives p s cs → Derives (.group p) s (s :: cs)

variable {admits}

@[simp] theorem derives_empty_iff {s : List α} {cs : List (List α)} :
    Derives admits .empty s cs ↔ s = [] ∧ cs = [] := by
  constructor
  · intro h; cases h; exact ⟨rfl, rfl⟩
  · rintro ⟨rfl, rfl⟩; exact .empty

@[simp] theorem derives_one_iff {c : κ} {s : List α} {cs : List (List α)} :
    Derives admits (.one c) s cs ↔ (∃ a, admits c a ∧ s = [a]) ∧ cs = [] := by
  constructor
  · intro h; cases h with
    | one h => exact ⟨⟨_, h, rfl⟩, rfl⟩
  · rintro ⟨⟨a, ha, rfl⟩, rfl⟩; exact .one ha

@[simp] theorem derives_greedy_iff {c : κ} {s : List α} {cs : List (List α)} :
    Derives admits (.greedy c) s cs ↔ (∀ a ∈ s, admits c a) ∧ cs = [] := by
  constructor
  · intro h; cases h with
    | greedy h => exact ⟨h, rfl⟩
  · rintro ⟨h, rfl⟩; exact .greedy h

@[simp] theorem derives_reluctant_iff {c : κ} {s : List α} {cs : List (List α)} :
    Derives admits (.reluctant c) s cs ↔ (∀ a ∈ s, admits c a) ∧ cs = [] := by
  constructor
  · intro h; cases h with
    | reluctant h => exact ⟨h, rfl⟩
  · rintro ⟨h, rfl⟩; exact .reluctant h

@[simp] theorem derives_seq_iff {p q : Pattern κ} {s : List α} {cs : List (List α)} :
    Derives admits (.seq p q) s cs ↔
      ∃ t u ds es, s = t ++ u ∧ cs = ds ++ es ∧ Derives admits p t ds ∧ Derives admits q u es := by
  constructor
  · intro h; cases h with
    | seq hp hq => exact ⟨_, _, _, _, rfl, rfl, hp, hq⟩
  · rintro ⟨t, u, ds, es, rfl, rfl, hp, hq⟩; exact .seq hp hq

@[simp] theorem derives_group_iff {p : Pattern κ} {s : List α} {cs : List (List α)} :
    Derives admits (.group p) s cs ↔ ∃ ds, cs = s :: ds ∧ Derives admits p s ds := by
  constructor
  · intro h; cases h with
    | group h => exact ⟨_, rfl, h⟩
  · rintro ⟨ds, rfl, h⟩; exact .group h

theorem derives_plus_iff {c : κ} {s : List α} {cs : List (List α)} :
    Derives admits (.plus c) s cs ↔ s ≠ [] ∧ (∀ a ∈ s, admits c a) ∧ cs = [] := by
  simp only [Pattern.plus, derives_seq_iff, derives_one_iff, derives_greedy_iff]
  constructor
  · rintro ⟨t, u, ds, es, rfl, rfl, ⟨⟨a, ha, rfl⟩, rfl⟩, hu, rfl⟩
    refine ⟨by simp, ?_, rfl⟩
    simpa using ⟨ha, hu⟩
  · rintro ⟨hs, hall, rfl⟩
    cases s with
    | nil => exact absurd rfl hs
    | cons a s =>
      exact ⟨[a], s, [], [], rfl, rfl, ⟨⟨a, hall a (by simp), rfl⟩, rfl⟩,
        fun b hb => hall b (by simp [hb]), rfl⟩

/-- A run succeeds exactly where the continuation does after some admitted prefix. -/
theorem greedyRun_some {c : κ} {k : List α → Option β} {s : List α} {b : β}
    (h : greedyRun admits c k s = some b) :
    ∃ t u, s = t ++ u ∧ (∀ a ∈ t, admits c a) ∧ k u = some b := by
  induction s with
  | nil => exact ⟨[], [], rfl, by simp, h⟩
  | cons a s ih =>
    simp only [greedyRun] at h
    split at h
    · rename_i ha
      rcases Option.or_eq_some_iff.mp h with h | ⟨-, h⟩
      · obtain ⟨t, u, rfl, ht, hk⟩ := ih h
        exact ⟨a :: t, u, rfl, by simpa using ⟨ha, ht⟩, hk⟩
      · exact ⟨[], a :: s, rfl, by simp, h⟩
    · exact ⟨[], a :: s, rfl, by simp, h⟩

theorem greedyRun_none {c : κ} {k : List α → Option β} {t u : List α}
    (h : greedyRun admits c k (t ++ u) = none) (ht : ∀ a ∈ t, admits c a) : k u = none := by
  induction t with
  | nil =>
    cases u with
    | nil => exact h
    | cons a u =>
      simp only [List.nil_append, greedyRun] at h
      split at h
      · exact (Option.or_eq_none_iff.mp h).2
      · exact h
  | cons a t ih =>
    simp only [List.cons_append, greedyRun, ht a (by simp), ↓reduceIte] at h
    exact ih (Option.or_eq_none_iff.mp h).1 fun b hb => ht b (by simp [hb])

theorem reluctantRun_some {c : κ} {k : List α → Option β} {s : List α} {b : β}
    (h : reluctantRun admits c k s = some b) :
    ∃ t u, s = t ++ u ∧ (∀ a ∈ t, admits c a) ∧ k u = some b := by
  induction s with
  | nil => exact ⟨[], [], rfl, by simp, h⟩
  | cons a s ih =>
    simp only [reluctantRun] at h
    rcases Option.or_eq_some_iff.mp h with h | ⟨-, h⟩
    · exact ⟨[], a :: s, rfl, by simp, h⟩
    · split at h
      · rename_i ha
        obtain ⟨t, u, rfl, ht, hk⟩ := ih h
        exact ⟨a :: t, u, rfl, by simpa using ⟨ha, ht⟩, hk⟩
      · cases h

theorem reluctantRun_none {c : κ} {k : List α → Option β} {t u : List α}
    (h : reluctantRun admits c k (t ++ u) = none) (ht : ∀ a ∈ t, admits c a) : k u = none := by
  induction t with
  | nil =>
    cases u with
    | nil => exact h
    | cons a u => exact (Option.or_eq_none_iff.mp h).1
  | cons a t ih =>
    simp only [List.cons_append, reluctantRun, ht a (by simp), ↓reduceIte] at h
    exact ih (Option.or_eq_none_iff.mp h).2 fun b hb => ht b (by simp [hb])

/-- What the matcher hands to its continuation is a decomposition of a prefix. -/
theorem matchWith_some {p : Pattern κ} {s : List α} {k : List (List α) → List α → Option β} {b : β}
    (h : matchWith admits p s k = some b) :
    ∃ t u cs, s = t ++ u ∧ Derives admits p t cs ∧ k cs u = some b := by
  induction p generalizing s k with
  | empty => exact ⟨[], s, [], rfl, .empty, h⟩
  | one c =>
    cases s with
    | nil => cases h
    | cons a s =>
      simp only [matchWith] at h
      split at h
      · rename_i ha; exact ⟨[a], s, [], rfl, .one ha, h⟩
      · cases h
  | greedy c =>
    obtain ⟨t, u, hs, ht, hk⟩ := greedyRun_some h
    exact ⟨t, u, [], hs, .greedy ht, hk⟩
  | reluctant c =>
    obtain ⟨t, u, hs, ht, hk⟩ := reluctantRun_some h
    exact ⟨t, u, [], hs, .reluctant ht, hk⟩
  | seq p q ihp ihq =>
    obtain ⟨t, u, cs, rfl, hp, hk⟩ := ihp h
    obtain ⟨v, w, ds, rfl, hq, hk⟩ := ihq hk
    exact ⟨t ++ v, w, cs ++ ds, by simp, .seq hp hq, hk⟩
  | group p ih =>
    obtain ⟨t, u, cs, rfl, hp, hk⟩ := ih h
    refine ⟨t, u, t :: cs, rfl, .group hp, ?_⟩
    simpa using hk

/-- A failing search has tried every decomposition of every prefix. -/
theorem matchWith_none {p : Pattern κ} {t u : List α} {cs : List (List α)}
    {k : List (List α) → List α → Option β}
    (h : matchWith admits p (t ++ u) k = none) (hd : Derives admits p t cs) : k cs u = none := by
  induction hd generalizing u k with
  | empty => exact h
  | one ha => simpa [matchWith, ha] using h
  | greedy ht => exact greedyRun_none h ht
  | reluctant ht => exact reluctantRun_none h ht
  | seq hp hq ihp ihq =>
    rw [List.append_assoc] at h
    exact ihq (ihp h)
  | group hp ih =>
    have := ih h
    simpa using this

/-- A match is a decomposition of the whole text. -/
theorem regexMatch_sound {p : Pattern κ} {s : List α} {cs : List (List α)}
    (h : regexMatch admits p s = some cs) : Derives admits p s cs := by
  obtain ⟨t, u, ds, rfl, hd, hk⟩ := matchWith_some h
  cases u with
  | nil => simp only [List.isEmpty_nil, ↓reduceIte, Option.some.injEq] at hk; subst hk; simpa using hd
  | cons a u => simp at hk

/-- A text is refused only when it has no decomposition. -/
theorem regexMatch_eq_none_iff {p : Pattern κ} {s : List α} :
    regexMatch admits p s = none ↔ ∀ cs, ¬ Derives admits p s cs := by
  constructor
  · intro h cs hd
    have := matchWith_none (u := []) (by simpa [regexMatch] using h) hd
    simp at this
  · intro h
    cases hm : regexMatch admits p s with
    | none => rfl
    | some cs => exact absurd (regexMatch_sound hm) (h cs)

/-- The search order does not matter for a text with a single decomposition. -/
theorem regexMatch_of_unique {p : Pattern κ} {s : List α} {cs : List (List α)}
    (h : Derives admits p s cs) (hu : ∀ ds, Derives admits p s ds → ds = cs) :
    regexMatch admits p s = some cs := by
  cases hm : regexMatch admits p s with
  | none => exact absurd h (regexMatch_eq_none_iff.mp hm cs)
  | some ds => rw [hu ds (regexMatch_sound hm)]

end

end Backtracking
