import Mathlib.Data.NNRat.Defs
import Mathlib.Algebra.Order.Field.Rat
import Mathlib.Tactic.NormNum
import OpenScap.WeightedMean
import OpenScap.XccdfResult

/-!
# Scoring an XCCDF benchmark

The default score of a group is the weighted mean of the scores of its children, those apart that
have no counted rule; the flat score is the sum of the weights of the rules that pass, with the sum
of all weights as its maximum; and the absolute score says whether the two are the same. Weights
and scores are exact.

A group whose counted children have no weight has the score zero, and counts with it.

## Main results

* `itemGetDefaultScore_eq` — the default score is the nested weighted mean;
* `nestedMean_mem`, `nestedMean_eq_iff` — between which bounds it is, and when it is full;
* `itemGetFlatScore_spec` — the flat score and its maximum;
* `scores_correct` — the scores of a benchmark.
-/

open WeightedMean

namespace OpenScap.Score

/-! ### Items and results -/

/-- An item, with its weight. Only rules, groups and benchmarks are scored. -/
inductive XccdfItem
  | rule (id : String) (weight : ℚ≥0)
  | group (weight : ℚ≥0) (content : List XccdfItem)
  | benchmark (weight : ℚ≥0) (content : List XccdfItem)
  | other (weight : ℚ≥0)

/-- `xccdf_item_get_weight`. -/
def XccdfItem.weight : XccdfItem → ℚ≥0
  | .rule _ weight | .group weight _ | .benchmark weight _ | .other weight => weight

/-- The results of a test: the rules that they are about, and what they are. -/
abbrev XccdfResult := List (String × XccdfTestResult)

/-- `xccdf_result_get_rule_result_by_id`: the first result of a rule. -/
def getRuleResultById (testResult : XccdfResult) (id : String) : Option XccdfTestResult :=
  (testResult.find? fun ruleResult => ruleResult.1 = id).map Prod.snd

/-- The results with which a rule is not counted. -/
def ignored : XccdfTestResult → Bool
  | .notSelected | .notApplicable | .informational | .notChecked => true
  | _ => false

/-- The results with which a rule has a score. -/
def passed : XccdfTestResult → Bool
  | .pass | .fixed => true
  | _ => false

/-! ### Scores -/

/-- `struct xccdf_default_score`, for the caller. -/
structure XccdfDefaultScore where
  score : ℚ
  weightScore : ℚ
  count : ℕ

/-- `struct xccdf_flat_score`. -/
structure XccdfFlatScore where
  score : ℚ
  weight : ℚ

/-- The score, the accumulated weight and the count of a group, so far. -/
structure GroupScore where
  score : ℚ
  accumulator : ℚ
  count : ℕ

/-- A child in the default score of a group. -/
def GroupScore.add (group : GroupScore) (weight : ℚ≥0) (child : Option XccdfDefaultScore) :
    GroupScore :=
  match child with
  | none => group
  | some child =>
      if child.count = 0 then group
      else
        { score := group.score + child.weightScore
          accumulator := group.accumulator + weight
          count := group.count + 1 }

/-- The default score of a group behind its children. -/
def GroupScore.finish (group : GroupScore) (weight : ℚ≥0) : XccdfDefaultScore :=
  let score :=
    if group.count ≠ 0 ∧ group.accumulator ≠ 0 then group.score / group.accumulator
    else group.score
  { score, weightScore := score * weight, count := group.count }

/-- A child in the flat score of a group. -/
def XccdfFlatScore.add (group : XccdfFlatScore) (child : Option XccdfFlatScore) :
    XccdfFlatScore :=
  match child with
  | none => group
  | some child =>
      if child.weight = 0 then group
      else ⟨group.score + child.score, group.weight + child.weight⟩

section Scores

variable (testResult : XccdfResult)

mutual

/-- `xccdf_item_get_default_score`. -/
def itemGetDefaultScore : XccdfItem → Option XccdfDefaultScore
  | .rule id weight =>
      match getRuleResultById testResult id with
      | none => none
      | some result =>
          if ignored result then none
          else
            let score := if passed result then 100 else 0
            some { score, weightScore := score * weight, count := 1 }
  | .group weight content | .benchmark weight content =>
      some ((contentDefaultScore ⟨0, 0, 0⟩ content).finish weight)
  | .other _ => none

/-- The loop of `xccdf_item_get_default_score` over the children of a group. -/
def contentDefaultScore (group : GroupScore) : List XccdfItem → GroupScore
  | [] => group
  | child :: content =>
      contentDefaultScore (group.add child.weight (itemGetDefaultScore child)) content

end

mutual

/-- `xccdf_item_get_flat_score`. -/
def itemGetFlatScore (unweighted : Bool) : XccdfItem → Option XccdfFlatScore
  | .rule id weight =>
      match getRuleResultById testResult id with
      | none => none
      | some result =>
          if ignored result then none
          else
            let weight : ℚ := if unweighted then 1 else weight
            some { score := if passed result then weight else 0, weight }
  | .group _ content | .benchmark _ content => some (contentFlatScore unweighted ⟨0, 0⟩ content)
  | .other _ => none

/-- The loop of `xccdf_item_get_flat_score` over the children of a group. -/
def contentFlatScore (unweighted : Bool) (group : XccdfFlatScore) :
    List XccdfItem → XccdfFlatScore
  | [] => group
  | child :: content =>
      contentFlatScore unweighted (group.add (itemGetFlatScore unweighted child)) content

end

end Scores

/-- The scoring systems. -/
inductive ScoreSystem
  | default
  | flat
  | flatUnweighted
  | absolute
  | unsupported
  deriving DecidableEq

/-- `struct xccdf_score`. The maximum is not set for the default score. -/
structure XccdfScore where
  score : ℚ
  maximum : Option ℚ

/-- `xccdf_result_calculate_score`. No result is a system without support or a score that is
not there. -/
def calculateScore (testResult : XccdfResult) (benchmark : XccdfItem) :
    ScoreSystem → Option XccdfScore
  | .default => (itemGetDefaultScore testResult benchmark).map fun score => ⟨score.score, none⟩
  | .flat =>
      (itemGetFlatScore testResult false benchmark).map fun score =>
        ⟨score.score, some score.weight⟩
  | .flatUnweighted =>
      (itemGetFlatScore testResult true benchmark).map fun score =>
        ⟨score.score, some score.weight⟩
  | .absolute =>
      (itemGetFlatScore testResult false benchmark).map fun score =>
        ⟨if score.score = score.weight then 1 else 0, some score.weight⟩
  | .unsupported => none

/-! ### Counted rules -/

section Counted

variable (testResult : XccdfResult)

/-- A rule with a result that is not ignored. -/
def ruleCounted (id : String) : Bool :=
  ((getRuleResultById testResult id).map fun result => !ignored result).getD false

/-- A rule with a result that has a score. -/
def rulePassed (id : String) : Bool :=
  ((getRuleResultById testResult id).map passed).getD false

mutual

/-- An item with a counted rule. -/
def XccdfItem.counted : XccdfItem → Bool
  | .rule id _ => ruleCounted testResult id
  | .group _ content | .benchmark _ content => contentCounted content
  | .other _ => false

/-- Items with a counted rule. -/
def contentCounted : List XccdfItem → Bool
  | [] => false
  | child :: content => child.counted || contentCounted content

end

mutual

/-- The nested weighted mean: a rule has all or nothing, and a group the weighted mean of its
children with a counted rule. -/
def nestedMean : XccdfItem → ℚ
  | .rule id _ => if rulePassed testResult id then 100 else 0
  | .group _ content | .benchmark _ content => mean (countedScores content)
  | .other _ => 0

/-- The weights and the nested weighted means of the items with a counted rule. -/
def countedScores : List XccdfItem → List (ℚ × ℚ)
  | [] => []
  | child :: content =>
      if child.counted testResult then
        ((child.weight : ℚ), nestedMean child) :: countedScores content
      else countedScores content

end

/-- An item that can have the full score: a rule that passed, or a group with a counted child
that has a weight. -/
def XccdfItem.Full : XccdfItem → Prop
  | .rule id _ => rulePassed testResult id
  | .group _ content | .benchmark _ content =>
      ∃ child ∈ content, child.counted testResult ∧ 0 < child.weight
  | .other _ => True

end Counted

/-- The children of an item. -/
def XccdfItem.content : XccdfItem → List XccdfItem
  | .group _ content | .benchmark _ content => content
  | _ => []

/-- The items that are reached from an item over positive weights. -/
inductive OnPath : XccdfItem → XccdfItem → Prop
  | refl (item : XccdfItem) : OnPath item item
  | step {item child descendant : XccdfItem} (hchild : child ∈ item.content)
      (hweight : 0 < child.weight) (hpath : OnPath child descendant) : OnPath item descendant

mutual

/-- The rules of an item, with their weights. -/
def XccdfItem.rules : XccdfItem → List (String × ℚ≥0)
  | .rule id weight => [(id, weight)]
  | .group _ content | .benchmark _ content => contentRules content
  | .other _ => []

/-- The rules of items. -/
def contentRules : List XccdfItem → List (String × ℚ≥0)
  | [] => []
  | child :: content => child.rules ++ contentRules content

end

/-! ### The default score -/

section Default

variable {testResult : XccdfResult}

/-- Items have a counted rule if one of them has. -/
theorem contentCounted_iff {content : List XccdfItem} :
    contentCounted testResult content = true ↔
      ∃ child ∈ content, child.counted testResult = true := by
  induction content with
  | nil => simp [contentCounted]
  | cons child content ih => rw [contentCounted, Bool.or_eq_true, ih, List.exists_mem_cons_iff]

/-- The scores of the items with a counted rule. -/
theorem mem_countedScores {content : List XccdfItem} {item : ℚ × ℚ} :
    item ∈ countedScores testResult content ↔
      ∃ child ∈ content, child.counted testResult = true ∧
        item = ((child.weight : ℚ), nestedMean testResult child) := by
  induction content with
  | nil => simp [countedScores]
  | cons child content ih =>
      rw [countedScores, List.exists_mem_cons_iff, ← ih]
      split
      · next hcounted => rw [List.mem_cons, and_iff_right hcounted]
      · next hcounted => rw [eq_false hcounted, false_and, false_or]

mutual

/-- **The nested weighted mean is between 0 and 100.** -/
theorem nestedMean_mem : ∀ item : XccdfItem,
    0 ≤ nestedMean testResult item ∧ nestedMean testResult item ≤ 100
  | .rule id weight => by
      rw [nestedMean]
      split <;> norm_num
  | .group weight content => by
      rw [nestedMean]
      exact (countedScores_bounded content).mean_mem (by norm_num)
  | .benchmark weight content => by
      rw [nestedMean]
      exact (countedScores_bounded content).mean_mem (by norm_num)
  | .other weight => by
      rw [nestedMean]
      norm_num

/-- So are those of the children of a group. -/
theorem countedScores_bounded : ∀ content : List XccdfItem,
    Bounded 100 (countedScores testResult content)
  | [] => by simp [countedScores, Bounded]
  | child :: content => by
      rw [countedScores]
      split
      · exact bounded_cons.mpr
          ⟨⟨child.weight.coe_nonneg, nestedMean_mem child⟩, countedScores_bounded content⟩
      · exact countedScores_bounded content

end

/-- A group behind its children has their weighted mean. -/
theorem GroupScore.finish_score {items : List (ℚ × ℚ)} (h : Bounded 100 items) (weight : ℚ≥0) :
    ((⟨weightedSum items, total items, items.length⟩ : GroupScore).finish weight).score =
      mean items := by
  rw [GroupScore.finish, mean]
  by_cases hzero : total items = 0
  · have hle := h.weightedSum_le
    rw [hzero, mul_zero] at hle
    simp [hzero, le_antisymm hle h.weightedSum_nonneg]
  · have hne : items.length ≠ 0 := by
      intro hlength
      rw [List.eq_nil_of_length_eq_zero hlength] at hzero
      exact hzero rfl
    simp [hzero, hne]

/-- What a default score says of an item. -/
def XccdfItem.Scored (testResult : XccdfResult) (item : XccdfItem)
    (score : Option XccdfDefaultScore) : Prop :=
  if item.counted testResult then
    ∃ s, score = some s ∧ s.score = nestedMean testResult item ∧
      s.weightScore = nestedMean testResult item * item.weight ∧ s.count ≠ 0
  else ∀ s ∈ score, s.count = 0

/-- A scored child in the score of a group. -/
theorem GroupScore.add_scored {child : XccdfItem} {score : Option XccdfDefaultScore}
    (h : child.Scored testResult score) (items : List (ℚ × ℚ)) :
    (⟨weightedSum items, total items, items.length⟩ : GroupScore).add child.weight score =
      let items := items ++ if child.counted testResult then
        [((child.weight : ℚ), nestedMean testResult child)] else []
      ⟨weightedSum items, total items, items.length⟩ := by
  rw [XccdfItem.Scored] at h
  split at h
  · next hcounted =>
      obtain ⟨s, rfl, -, hweight, hcount⟩ := h
      simp [GroupScore.add, hcount, hweight, hcounted, weightedSum, total]
  · next hcounted =>
      cases score with
      | none => simp [GroupScore.add, hcounted]
      | some s => simp [GroupScore.add, h s rfl, hcounted]

/-- A group whose children are in its score is scored. -/
theorem GroupScore.finish_scored (content : List XccdfItem) (weight : ℚ≥0) {group : GroupScore}
    (h : group = ⟨weightedSum (countedScores testResult content),
      total (countedScores testResult content), (countedScores testResult content).length⟩) :
    if contentCounted testResult content then
      ∃ s, some (group.finish weight) = some s ∧
        s.score = mean (countedScores testResult content) ∧
        s.weightScore = mean (countedScores testResult content) * weight ∧ s.count ≠ 0
    else ∀ s ∈ some (group.finish weight), s.count = 0 := by
  subst h
  have hbounded : Bounded 100 (countedScores testResult content) := countedScores_bounded content
  have hscore := GroupScore.finish_score hbounded weight
  have hlength : (countedScores testResult content).length ≠ 0 ↔
      contentCounted testResult content = true := by
    rw [← Nat.pos_iff_ne_zero, List.length_pos_iff_exists_mem, contentCounted_iff]
    simp [mem_countedScores]
  split
  · next hcounted =>
      refine ⟨_, rfl, hscore, ?_, hlength.mpr hcounted⟩
      rw [← hscore]
      rfl
  · next hcounted =>
      rintro s hs
      obtain rfl := Option.some.inj hs
      by_contra hne
      exact hcounted (hlength.mp hne)

mutual

/-- **The default score is the nested weighted mean.** -/
theorem itemGetDefaultScore_eq : ∀ item : XccdfItem,
    item.Scored testResult (itemGetDefaultScore testResult item)
  | .rule id weight => by
      rw [XccdfItem.Scored, XccdfItem.counted, ruleCounted, nestedMean, rulePassed,
        itemGetDefaultScore]
      cases getRuleResultById testResult id with
      | none => simp
      | some result => cases hignored : ignored result <;> simp [XccdfItem.weight]
  | .group weight content => by
      rw [itemGetDefaultScore, XccdfItem.Scored, XccdfItem.counted, nestedMean]
      exact GroupScore.finish_scored content weight (contentDefaultScore_eq content [])
  | .benchmark weight content => by
      rw [itemGetDefaultScore, XccdfItem.Scored, XccdfItem.counted, nestedMean]
      exact GroupScore.finish_scored content weight (contentDefaultScore_eq content [])
  | .other weight => by simp [XccdfItem.Scored, XccdfItem.counted, itemGetDefaultScore]

/-- The loop over children takes up the scores of those with a counted rule. -/
theorem contentDefaultScore_eq : ∀ (content : List XccdfItem) (items : List (ℚ × ℚ)),
    contentDefaultScore testResult ⟨weightedSum items, total items, items.length⟩ content =
      let items := items ++ countedScores testResult content
      ⟨weightedSum items, total items, items.length⟩
  | [], items => by simp [contentDefaultScore, countedScores]
  | child :: content, items => by
      rw [contentDefaultScore, GroupScore.add_scored (itemGetDefaultScore_eq child),
        contentDefaultScore_eq content]
      rw [countedScores]
      split <;> simp

end

/-! ### The full score -/

/-- An item over which a counted one is reached has a counted rule. -/
theorem OnPath.counted {item descendant : XccdfItem} (h : OnPath item descendant)
    (hcounted : descendant.counted testResult = true) : item.counted testResult = true := by
  induction h with
  | refl => exact hcounted
  | @step item child _ hchild _ _ ih =>
      have hcontent := contentCounted_iff.mpr ⟨child, hchild, ih hcounted⟩
      cases item with
      | rule | other => exact absurd hchild (by simp [XccdfItem.content])
      | group | benchmark => rwa [XccdfItem.counted]

/-- A group has the full score if its children with a weight have. -/
theorem mean_countedScores_eq_iff (content : List XccdfItem) :
    mean (countedScores testResult content) = 100 ↔
      (∃ child ∈ content, child.counted testResult = true ∧ 0 < child.weight) ∧
        ∀ child ∈ content, child.counted testResult = true → 0 < child.weight →
          nestedMean testResult child = 100 := by
  rw [(countedScores_bounded content).mean_eq_iff (by norm_num)]
  refine and_congr ?_ ?_
  · constructor
    · rintro ⟨item, hitem, hpos⟩
      obtain ⟨child, hchild, hcounted, rfl⟩ := mem_countedScores.mp hitem
      exact ⟨child, hchild, hcounted, by exact_mod_cast hpos⟩
    · rintro ⟨child, hchild, hcounted, hpos⟩
      exact ⟨_, mem_countedScores.mpr ⟨child, hchild, hcounted, rfl⟩, by exact_mod_cast hpos⟩
  · constructor
    · intro h child hchild hcounted hpos
      exact h _ (mem_countedScores.mpr ⟨child, hchild, hcounted, rfl⟩) (by exact_mod_cast hpos)
    · intro h item hitem hpos
      obtain ⟨child, hchild, hcounted, rfl⟩ := mem_countedScores.mp hitem
      exact h child hchild hcounted (by exact_mod_cast hpos)

/-- All that is counted and reached over positive weights is full. -/
def XccdfItem.AllFull (testResult : XccdfResult) (item : XccdfItem) : Prop :=
  ∀ descendant, OnPath item descendant → descendant.counted testResult = true →
    descendant.Full testResult

/-- A group is full all over if it is full, and its children with a weight are full all over. -/
theorem XccdfItem.allFull_iff {item : XccdfItem} (hcounted : item.counted testResult = true) :
    item.AllFull testResult ↔ item.Full testResult ∧
      ∀ child ∈ item.content, 0 < child.weight → child.AllFull testResult := by
  constructor
  · intro h
    exact ⟨h item (.refl item) hcounted, fun child hchild hpos descendant hpath =>
      h descendant (.step hchild hpos hpath)⟩
  · rintro ⟨hfull, h⟩ descendant hpath hdescendant
    cases hpath with
    | refl => exact hfull
    | step hchild hpos hpath => exact h _ hchild hpos descendant hpath hdescendant

/-- An item without a counted rule is full all over. -/
theorem XccdfItem.allFull_of_not_counted {item : XccdfItem}
    (h : ¬ item.counted testResult = true) : item.AllFull testResult :=
  fun _ hpath hcounted => absurd (hpath.counted hcounted) h

mutual

/-- **The nested weighted mean of an item with a counted rule is 100 exactly if all that is
counted and reached over positive weights is full.** -/
theorem nestedMean_eq_iff : ∀ item : XccdfItem, item.counted testResult = true →
    (nestedMean testResult item = 100 ↔ item.AllFull testResult)
  | .rule id weight, hcounted => by
      rw [XccdfItem.allFull_iff hcounted, nestedMean, XccdfItem.Full]
      split
      · next hpassed => simp [hpassed, XccdfItem.content]
      · next hpassed => simp [hpassed]
  | .group weight content, hcounted => by
      rw [XccdfItem.allFull_iff hcounted, nestedMean, mean_countedScores_eq_iff]
      exact and_congr Iff.rfl (contentMean_eq_iff content)
  | .benchmark weight content, hcounted => by
      rw [XccdfItem.allFull_iff hcounted, nestedMean, mean_countedScores_eq_iff]
      exact and_congr Iff.rfl (contentMean_eq_iff content)
  | .other weight, hcounted => absurd hcounted (by simp [XccdfItem.counted])

/-- So it is for all children of a group. -/
theorem contentMean_eq_iff : ∀ content : List XccdfItem,
    (∀ child ∈ content, child.counted testResult = true → 0 < child.weight →
      nestedMean testResult child = 100) ↔
      ∀ child ∈ content, 0 < child.weight → child.AllFull testResult
  | [] => by simp
  | child :: content => by
      rw [List.forall_mem_cons, List.forall_mem_cons, contentMean_eq_iff content]
      refine and_congr_left fun _ => ?_
      by_cases hcounted : child.counted testResult = true
      · rw [nestedMean_eq_iff child hcounted]
        exact ⟨fun h => h hcounted, fun h _ => h⟩
      · exact iff_of_true (fun h => absurd h hcounted)
          fun _ => XccdfItem.allFull_of_not_counted hcounted

end

/-- A benchmark has a score, the nested weighted mean. -/
theorem benchmark_score (weight : ℚ≥0) (content : List XccdfItem) :
    ∃ score, itemGetDefaultScore testResult (.benchmark weight content) = some score ∧
      score.score = nestedMean testResult (.benchmark weight content) := by
  refine ⟨_, by rw [itemGetDefaultScore], ?_⟩
  have hcontent : contentDefaultScore testResult ⟨0, 0, 0⟩ content = _ :=
    contentDefaultScore_eq content []
  rw [hcontent, nestedMean]
  exact GroupScore.finish_score (countedScores_bounded content) weight

/-- The nested weighted mean of a benchmark is 100 exactly if it is full, and so is all that is
counted and reached over positive weights. -/
theorem nestedMean_benchmark_eq_iff (weight : ℚ≥0) (content : List XccdfItem) :
    nestedMean testResult (.benchmark weight content) = 100 ↔
      (XccdfItem.benchmark weight content).Full testResult ∧
        (XccdfItem.benchmark weight content).AllFull testResult := by
  by_cases hcounted : (XccdfItem.benchmark weight content).counted testResult = true
  · rw [nestedMean_eq_iff _ hcounted]
    exact ⟨fun h => ⟨h _ (.refl _) hcounted, h⟩, fun h => h.2⟩
  · refine iff_of_false ?_ ?_
    · rw [nestedMean, mean_countedScores_eq_iff]
      rintro ⟨⟨child, hchild, hchildCounted, -⟩, -⟩
      rw [XccdfItem.counted, contentCounted_iff] at hcounted
      exact hcounted ⟨child, hchild, hchildCounted⟩
    · rintro ⟨⟨child, hchild, hchildCounted, -⟩, -⟩
      rw [XccdfItem.counted, contentCounted_iff] at hcounted
      exact hcounted ⟨child, hchild, hchildCounted⟩

end Default

/-! ### The flat score -/

section Flat

variable {testResult : XccdfResult} {unweighted : Bool}

/-- A flat score is up to its maximum, and has it exactly if every counted rule with a weight
passed. -/
def XccdfFlatScore.Sums (testResult : XccdfResult) (unweighted : Bool)
    (rules : List (String × ℚ≥0)) (score : XccdfFlatScore) : Prop :=
  0 ≤ score.score ∧ score.score ≤ score.weight ∧
    (score.score = score.weight ↔ ∀ rule ∈ rules, ruleCounted testResult rule.1 = true →
      unweighted = true ∨ rule.2 ≠ 0 → rulePassed testResult rule.1 = true)

/-- The sums over some rules and over others. -/
theorem XccdfFlatScore.Sums.append {rules rules' : List (String × ℚ≥0)}
    {score score' : XccdfFlatScore} (h : score.Sums testResult unweighted rules)
    (h' : score'.Sums testResult unweighted rules') :
    (⟨score.score + score'.score, score.weight + score'.weight⟩ : XccdfFlatScore).Sums testResult
      unweighted (rules ++ rules') := by
  obtain ⟨hpos, hle, hiff⟩ := h
  obtain ⟨hpos', hle', hiff'⟩ := h'
  refine ⟨add_nonneg hpos hpos', add_le_add hle hle', ?_⟩
  rw [List.forall_mem_append, ← hiff, ← hiff']
  exact add_eq_add_iff_eq_and_eq hle hle'

/-- A child in the flat score of a group. A child without weight adds nothing. -/
theorem XccdfFlatScore.add_sums {rules rules' : List (String × ℚ≥0)} {group : XccdfFlatScore}
    {child : Option XccdfFlatScore} (h : group.Sums testResult unweighted rules)
    (hchild : (child.getD ⟨0, 0⟩).Sums testResult unweighted rules') :
    (group.add child).Sums testResult unweighted (rules ++ rules') := by
  have hsum := h.append hchild
  cases child with
  | none => simpa [XccdfFlatScore.add] using hsum
  | some child =>
      rw [XccdfFlatScore.add]
      split
      · next hzero =>
          obtain ⟨hpos, hle, -⟩ := hchild
          rw [Option.getD_some, hzero] at hle
          have hscore : child.score = 0 := le_antisymm hle hpos
          rwa [Option.getD_some, hzero, hscore, add_zero, add_zero] at hsum
      · exact hsum

mutual

/-- **The flat score is up to its maximum**, and has it exactly if every counted rule with a
weight passed. -/
theorem itemGetFlatScore_spec : ∀ item : XccdfItem,
    ((itemGetFlatScore testResult unweighted item).getD ⟨0, 0⟩).Sums testResult unweighted
      item.rules
  | .rule id weight => by
      have hweight : (0 : ℚ) ≤ weight := weight.coe_nonneg
      rw [itemGetFlatScore, XccdfItem.rules, XccdfFlatScore.Sums, List.forall_mem_singleton,
        ruleCounted, rulePassed]
      cases getRuleResultById testResult id with
      | none => simp
      | some result =>
          have hzero : (0 : ℚ) = weight ↔ weight = 0 := by rw [eq_comm]; norm_cast
          cases hignored : ignored result <;> cases hpassed : passed result <;>
            cases unweighted <;> simp [hweight, hignored, hpassed, hzero]
  | .group weight content => by
      rw [itemGetFlatScore, XccdfItem.rules]
      exact contentFlatScore_spec content [] (by simp [XccdfFlatScore.Sums])
  | .benchmark weight content => by
      rw [itemGetFlatScore, XccdfItem.rules]
      exact contentFlatScore_spec content [] (by simp [XccdfFlatScore.Sums])
  | .other weight => by simp [itemGetFlatScore, XccdfItem.rules, XccdfFlatScore.Sums]

/-- The loop over children takes up their rules. -/
theorem contentFlatScore_spec : ∀ (content : List XccdfItem) (rules : List (String × ℚ≥0))
    {group : XccdfFlatScore}, group.Sums testResult unweighted rules →
      (contentFlatScore testResult unweighted group content).Sums testResult unweighted
        (rules ++ contentRules content)
  | [], rules, group, h => by
      rw [contentFlatScore, contentRules, List.append_nil]
      exact h
  | child :: content, rules, group, h => by
      rw [contentFlatScore, contentRules, ← List.append_assoc]
      exact contentFlatScore_spec content _
        (XccdfFlatScore.add_sums h (itemGetFlatScore_spec child))

end

end Flat

/-! ### The scores of a benchmark -/

/-- **The scores of a benchmark.** The default score is the nested weighted mean, in which a
group whose counted children have no weight has zero. It is 100 exactly if the benchmark, and
every counted item that is reached over positive weights, is a rule that passed or has a counted
child with a weight. The flat scores are up to their maximum, and the absolute score is 1 exactly
if every counted rule with a weight passed. -/
theorem scores_correct (testResult : XccdfResult) (weight : ℚ≥0) (content : List XccdfItem) :
    let benchmark := XccdfItem.benchmark weight content
    (∃ score, calculateScore testResult benchmark .default = some score ∧
      score.score = nestedMean testResult benchmark ∧ 0 ≤ score.score ∧ score.score ≤ 100 ∧
      (score.score = 100 ↔ benchmark.Full testResult ∧
        ∀ item, OnPath benchmark item → item.counted testResult = true →
          item.Full testResult)) ∧
    (∀ system, system = .flat ∨ system = .flatUnweighted →
      ∃ score maximum, calculateScore testResult benchmark system = some ⟨score, some maximum⟩ ∧
        0 ≤ score ∧ score ≤ maximum) ∧
    ∃ score, calculateScore testResult benchmark .absolute = some score ∧
      (score.score = 1 ↔ ∀ rule ∈ benchmark.rules, ruleCounted testResult rule.1 = true →
        rule.2 ≠ 0 → rulePassed testResult rule.1 = true) := by
  intro benchmark
  have hflat : ∀ unweighted, ∃ score,
      itemGetFlatScore testResult unweighted benchmark = some score ∧
        score.Sums testResult unweighted benchmark.rules := by
    intro unweighted
    have h : ((itemGetFlatScore testResult unweighted benchmark).getD ⟨0, 0⟩).Sums testResult
        unweighted benchmark.rules := itemGetFlatScore_spec benchmark
    exact ⟨_, by rw [itemGetFlatScore]; rfl, h⟩
  refine ⟨?_, ?_, ?_⟩
  · have hmem : 0 ≤ nestedMean testResult benchmark ∧ nestedMean testResult benchmark ≤ 100 :=
      nestedMean_mem benchmark
    obtain ⟨score, hscore, hmean⟩ := @benchmark_score testResult weight content
    refine ⟨⟨score.score, none⟩, by rw [calculateScore, hscore]; rfl, hmean, ?_⟩
    dsimp only
    rw [hmean]
    exact ⟨hmem.1, hmem.2, nestedMean_benchmark_eq_iff weight content⟩
  · rintro system (rfl | rfl)
    · obtain ⟨score, hscore, hpos, hle, -⟩ := hflat false
      exact ⟨_, _, by rw [calculateScore, hscore]; rfl, hpos, hle⟩
    · obtain ⟨score, hscore, hpos, hle, -⟩ := hflat true
      exact ⟨_, _, by rw [calculateScore, hscore]; rfl, hpos, hle⟩
  · obtain ⟨score, hscore, -, -, hiff⟩ := hflat false
    refine ⟨_, by rw [calculateScore, hscore]; rfl, ?_⟩
    simp only [Bool.false_eq_true, false_or] at hiff
    rw [← hiff]
    simp

/-- A benchmark with a rule that passed, and with a group whose only rule passed and has no
weight, has the default score 50. -/
theorem not_scores_full :
    ¬ ∀ (testResult : XccdfResult) (weight : ℚ≥0) (content : List XccdfItem) (score : XccdfScore),
      calculateScore testResult (.benchmark weight content) .default = some score →
        (score.score = 100 ↔ ∀ id ruleWeight,
          OnPath (.benchmark weight content) (.rule id ruleWeight) → 0 < ruleWeight →
            ruleCounted testResult id = true → rulePassed testResult id = true) := by
  intro h
  have hscore : calculateScore [("a", .pass), ("b", .pass)]
      (.benchmark 1 [.group 1 [.rule "a" 0], .rule "b" 1]) .default = some ⟨50, none⟩ := by
    have ha : getRuleResultById [("a", .pass), ("b", .pass)] "a" = some .pass := by decide
    have hb : getRuleResultById [("a", .pass), ("b", .pass)] "b" = some .pass := by decide
    simp only [calculateScore, itemGetDefaultScore, contentDefaultScore, ha, hb]
    norm_num [ignored, passed, GroupScore.add, GroupScore.finish, XccdfItem.weight]
  have hiff := h _ _ _ _ hscore
  have hpassed : ∀ id, ruleCounted [("a", .pass), ("b", .pass)] id = true →
      rulePassed [("a", .pass), ("b", .pass)] id = true := by
    intro id
    rw [ruleCounted, rulePassed, getRuleResultById]
    cases hfind : [("a", XccdfTestResult.pass), ("b", .pass)].find? fun result => result.1 = id with
    | none => simp
    | some result =>
        have hmem := List.mem_of_find?_eq_some hfind
        rcases List.mem_cons.mp hmem with rfl | hmem
        · simp [passed]
        · obtain rfl := List.mem_singleton.mp hmem
          simp [passed]
  have hfull := hiff.mpr fun id _ _ _ => hpassed id
  norm_num at hfull

end OpenScap.Score
