import Everarch.Lib.Sql.Semantics
import Mathlib.Data.List.Infix

/-!
# Glob patterns and substrings

* `globMatch_plain_append_star`: what a pattern without special characters matches.
* `exists_short_match`: a pattern that matches anything matches a text that is no longer than the
  pattern without its stars, and not equal to it if it has a question mark or a set.
* `glob_stars_of_plain`, `exists_glob_stars_ne`: when `*text*` looks for the text.
-/

namespace Everarch.Sql

/-- The character has a meaning of its own in a pattern. -/
def GlobSpecial (c : Char) : Prop :=
  c = '*' ∨ c = '?' ∨ c = '['

instance (c : Char) : Decidable (GlobSpecial c) :=
  inferInstanceAs (Decidable (_ ∨ _ ∨ _))

namespace GlobLemmas

/-! ### Equations -/

theorem globMatch_star {n : Nat} {p s : List Char} :
    globMatch (n + 1) ('*' :: p) s = true ↔ ∃ t, t <:+ s ∧ globMatch n p t = true := by
  rw [globMatch, List.any_eq_true]
  exact exists_congr fun t => and_congr (List.mem_tails t s) Iff.rfl

theorem globMatch_plain {n : Nat} {c : Char} {p s : List Char} (hc : ¬GlobSpecial c) :
    globMatch (n + 1) (c :: p) s = true ↔ ∃ t, s = c :: t ∧ globMatch n p t = true := by
  have hstar : c ≠ '*' := fun h => hc (.inl h)
  have hany : c ≠ '?' := fun h => hc (.inr (.inl h))
  have hset : c ≠ '[' := fun h => hc (.inr (.inr h))
  cases s with
  | nil => simp [globMatch]
  | cons c' s =>
    have heq : globMatch (n + 1) (c :: p) (c' :: s) = (c = c' && globMatch n p s) := by
      simp only [globMatch]
    rw [heq, Bool.and_eq_true, decide_eq_true_iff]
    constructor
    · rintro ⟨rfl, h⟩
      exact ⟨s, rfl, h⟩
    · rintro ⟨t, heq, h⟩
      cases heq
      exact ⟨rfl, h⟩

theorem globMatch_any {n : Nat} {p s : List Char} :
    globMatch (n + 1) ('?' :: p) s = true ↔ ∃ c t, s = c :: t ∧ globMatch n p t = true := by
  cases s with
  | nil => simp [globMatch]
  | cons c s => simp [globMatch]

theorem globMatch_set {n : Nat} {p s : List Char} :
    globMatch (n + 1) ('[' :: p) s = true ↔
      ∃ c t q, s = c :: t ∧ globClass c p = some (true, q) ∧ globMatch n q t = true := by
  cases s with
  | nil => simp [globMatch]
  | cons c s =>
    rw [globMatch]
    constructor
    · intro h
      split at h
      · next q hclass => exact ⟨c, s, q, rfl, hclass, h⟩
      · cases h
    · rintro ⟨c', t, q, hs, hclass, h⟩
      cases hs
      rw [hclass]
      exact h

theorem exists_append_cons {c : Char} {p q : List Char} (h : ∃ r, p = r ++ q) :
    ∃ r, c :: p = r ++ q := by
  obtain ⟨r, rfl⟩ := h
  exact ⟨c :: r, rfl⟩

/-- A set ends with its closing bracket. -/
theorem globSet_rest {c : Char} {prior : Option Char} {seen b : Bool} {p q : List Char}
    (h : globSet c prior seen p = some (b, q)) : ∃ r, p = r ++ ']' :: q := by
  fun_induction globSet c prior seen p with
  | case1 => cases h
  | case2 prior seen p =>
    cases h
    exact ⟨[], rfl⟩
  | case3 seen p a ih => exact exists_append_cons (ih h)
  | case4 seen p a c2 _ ih => exact exists_append_cons (exists_append_cons (ih h))
  | case5 seen p c2 ih => exact exists_append_cons (ih h)
  | case6 prior seen c2 p _ _ ih => exact exists_append_cons (ih h)

theorem globClass_rest {c : Char} {b : Bool} {p q : List Char}
    (h : globClass c p = some (b, q)) : ∃ r, p = r ++ ']' :: q := by
  unfold globClass at h
  split at h
  · obtain ⟨⟨b', q'⟩, hset, heq⟩ := Option.map_eq_some_iff.mp h
    cases heq
    exact exists_append_cons (exists_append_cons (globSet_rest hset))
  · obtain ⟨⟨b', q'⟩, hset, heq⟩ := Option.map_eq_some_iff.mp h
    cases heq
    exact exists_append_cons (globSet_rest hset)
  · exact exists_append_cons (globSet_rest h)
  · exact globSet_rest h

/-! ### Patterns without special characters -/

/-- Such a pattern before a star is a prefix of what it matches. -/
theorem globMatch_plain_append_star {n : Nat} {p s : List Char} (hn : p.length + 2 ≤ n)
    (hp : ∀ c ∈ p, ¬GlobSpecial c) : globMatch n (p ++ ['*']) s = true ↔ p <+: s := by
  induction p generalizing n s with
  | nil =>
    obtain ⟨n, rfl⟩ := Nat.exists_eq_add_of_le' hn
    refine ⟨fun _ => List.nil_prefix, fun _ => ?_⟩
    exact globMatch_star.mpr ⟨[], List.nil_suffix, rfl⟩
  | cons c p ih =>
    obtain ⟨hc, hp⟩ := List.forall_mem_cons.mp hp
    cases n with
    | zero => cases hn
    | succ n =>
      rw [List.cons_append, globMatch_plain hc, List.cons_prefix_iff]
      exact exists_congr fun t => and_congr Iff.rfl (ih (Nat.le_of_succ_le_succ hn) hp)

/-! ### Short matches -/

/-- What is left of a pattern without its stars. -/
def withoutStars (p : List Char) : List Char :=
  p.filter (· ≠ '*')

end GlobLemmas

open GlobLemmas

/-- A pattern that matches a text also matches one with no more characters than it has besides its
stars, and, if it has a question mark or a set, with other characters. -/
theorem exists_short_match {n : Nat} {p s : List Char} (h : globMatch n p s = true) :
    ∃ m, globMatch n p m = true ∧ m.length ≤ (withoutStars p).length ∧
      ('?' ∈ p ∨ '[' ∈ p → m ≠ withoutStars p) ∧ ∀ c ∈ m, c ∈ s ∨ c = 'a' := by
  induction n generalizing p s with
  | zero => cases h
  | succ n ih =>
    cases p with
    | nil =>
      have hs : s = [] := List.isEmpty_iff.mp h
      subst hs
      refine ⟨[], h, Nat.le_refl 0, fun hspecial => ?_, fun c hc => .inl hc⟩
      exact (hspecial.elim List.not_mem_nil List.not_mem_nil).elim
    | cons c p =>
      by_cases hspecial : GlobSpecial c
      · rcases hspecial with rfl | rfl | rfl
        · obtain ⟨t, ht, htail⟩ := globMatch_star.mp h
          obtain ⟨m, hm, hlength, hne, hchars⟩ := ih htail
          refine ⟨m, globMatch_star.mpr ⟨m, List.suffix_refl m, hm⟩, hlength, ?_, ?_⟩
          · intro hmem
            exact hne (hmem.imp (List.mem_of_ne_of_mem (by decide))
              (List.mem_of_ne_of_mem (by decide)))
          · exact fun c hc => (hchars c hc).imp_left fun hct => ht.mem hct
        · obtain ⟨c, t, rfl, ht⟩ := globMatch_any.mp h
          obtain ⟨m, hm, hlength, -, hchars⟩ := ih ht
          have hstars : withoutStars ('?' :: p) = '?' :: withoutStars p :=
            List.filter_cons_of_pos (by decide)
          rw [hstars]
          refine ⟨'a' :: m, globMatch_any.mpr ⟨'a', m, rfl, hm⟩, Nat.succ_le_succ hlength, ?_, ?_⟩
          · intro _ heq
            cases heq
          · exact List.forall_mem_cons.mpr ⟨.inr rfl, fun c hc =>
              (hchars c hc).imp_left (List.mem_cons_of_mem _)⟩
        · obtain ⟨c, t, q, rfl, hclass, hq⟩ := globMatch_set.mp h
          obtain ⟨m, hm, hlength, -, hchars⟩ := ih hq
          obtain ⟨r, rfl⟩ := globClass_rest hclass
          -- the closing bracket is a character of the pattern that the set does not need
          have hlt : (c :: m).length < (withoutStars ('[' :: (r ++ ']' :: q))).length := by
            have hstars : withoutStars ('[' :: (r ++ ']' :: q)) =
                '[' :: (withoutStars r ++ ']' :: withoutStars q) := by
              simp [withoutStars]
            rw [hstars, List.length_cons, List.length_cons, List.length_append, List.length_cons]
            omega
          refine ⟨c :: m, globMatch_set.mpr ⟨c, m, q, rfl, hclass, hm⟩, Nat.le_of_lt hlt, ?_, ?_⟩
          · exact fun _ heq => absurd (congrArg List.length heq) (Nat.ne_of_lt hlt)
          · exact List.forall_mem_cons.mpr ⟨.inl List.mem_cons_self, fun c hc =>
              (hchars c hc).imp_left (List.mem_cons_of_mem _)⟩
      · obtain ⟨t, rfl, ht⟩ := (globMatch_plain hspecial).mp h
        obtain ⟨m, hm, hlength, hne, hchars⟩ := ih ht
        have hstars : withoutStars (c :: p) = c :: withoutStars p :=
          List.filter_cons_of_pos (decide_eq_true fun hc => hspecial (.inl hc))
        rw [hstars]
        refine ⟨c :: m, (globMatch_plain hspecial).mpr ⟨m, rfl, hm⟩, Nat.succ_le_succ hlength,
          ?_, ?_⟩
        · intro hmem heq
          refine hne (hmem.imp (List.mem_of_ne_of_mem ?_) (List.mem_of_ne_of_mem ?_))
            (List.cons.inj heq).2
          · exact fun hc => hspecial (.inr (.inl hc.symm))
          · exact fun hc => hspecial (.inr (.inr hc.symm))
        · exact List.forall_mem_cons.mpr ⟨.inl List.mem_cons_self, fun c hc =>
            (hchars c hc).imp_left (List.mem_cons_of_mem _)⟩

/-! ## Patterns between stars -/

section Stars

variable {p s : String} {text : List Char} (hp : p.toList = '*' :: (text ++ ['*']))
include hp

theorem glob_stars : glob p s = true ↔
    ∃ t, t <:+ s.toList ∧ globMatch (text.length + 2) (text ++ ['*']) t = true := by
  have hlength : p.length = text.length + 2 := by
    rw [← String.length_toList, hp, List.length_cons, List.length_append, List.length_singleton]
  rw [glob, hlength, hp, globMatch_star]

/-- A text without special characters is what the pattern looks for. -/
theorem glob_stars_of_plain (hplain : ∀ c ∈ text, ¬GlobSpecial c) :
    glob p s = true ↔ text <:+: s.toList := by
  rw [glob_stars hp, List.infix_iff_prefix_suffix]
  refine exists_congr fun t => ?_
  rw [globMatch_plain_append_star (Nat.le_refl _) hplain, and_comm]

/-- With a special character the pattern looks for something else. -/
theorem exists_glob_stars_ne {c : Char} (hc : c ∈ text) (hspecial : GlobSpecial c) :
    ∃ s : String, (∀ c ∈ s.toList, c ∈ text ∨ c = 'a') ∧
      ¬(glob p s = true ↔ text <:+: s.toList) := by
  by_cases hself : glob p (String.ofList text) = true
  · obtain ⟨t, ht, hmatch⟩ := (glob_stars hp).mp hself
    rw [String.toList_ofList] at ht
    obtain ⟨m, hm, hlength, hne, hchars⟩ := exists_short_match hmatch
    have hstars : withoutStars (text ++ ['*']) = withoutStars text := by
      rw [withoutStars, List.filter_append]
      exact List.append_nil _
    rw [hstars] at hlength hne
    refine ⟨String.ofList m, ?_, fun hiff => ?_⟩
    · rw [String.toList_ofList]
      exact fun c hcm => (hchars c hcm).imp_left fun hct => ht.mem hct
    · rw [String.toList_ofList] at hiff
      have hcontains : text <:+: m := hiff.mp <| (glob_stars hp).mpr
        ⟨m, by rw [String.toList_ofList], hm⟩
      -- the match is too short for the text unless it is the text
      have hsub : (withoutStars text).Sublist text := List.filter_sublist
      have htext : withoutStars text = text :=
        hsub.eq_of_length_le (hcontains.length_le.trans hlength)
      have hm' : text = m := hcontains.eq_of_length_le (htext ▸ hlength)
      rcases hspecial with rfl | rfl | rfl
      · have hall := List.filter_eq_self.mp htext
        exact absurd (hall _ hc) (by decide)
      · exact hne (.inl (List.mem_append_left _ hc)) (hm'.symm.trans htext.symm)
      · exact hne (.inr (List.mem_append_left _ hc)) (hm'.symm.trans htext.symm)
  · refine ⟨String.ofList text, ?_, fun hiff => hself (hiff.mpr ?_)⟩
    · rw [String.toList_ofList]
      exact fun c hct => .inl hct
    · rw [String.toList_ofList]

end Stars

end Everarch.Sql
