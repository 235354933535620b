import Mathlib.Algebra.BigOperators.Group.Finset.Piecewise
import Mathlib.Algebra.Order.BigOperators.Group.Finset
import Mathlib.Logic.Relation
import DesignMetrics.Proofs.Metrics.Ratios

/-!
# Lack of cohesion

The accesses are counted method by method, and it is the same to count them field by field, each
name once. So the order of the methods, of the fields and of the accesses does not matter, nor do
repeats and other names among the accesses, and a method that accesses more makes the type no less
cohesive, as rounding keeps the order.

The definition of the metric adds up the accesses of all declared fields, while the names that are
counted are distinct. The two differ when a field that some method accesses is declared again: it
counts twice in the number of pairs and once in the number of accesses, and the type appears less
cohesive than it is.
-/

namespace DesignMetrics

open Binary64 Relation

namespace TypeDecl

variable {t t' : TypeDecl} {name : String}

/-! ## Counting accesses -/

/-- The names of the fields. -/
def declaredFields (t : TypeDecl) : Finset String := (t.fields.map (·.name)).toFinset

/-- How many methods access a name. -/
def accessorCount (t : TypeDecl) (name : String) : Nat :=
  t.methods.countP fun f => decide (name ∈ f.accessedFields)

theorem accessCount_eq_sum (t : TypeDecl) (f : Method) :
    f.accessCount t.fieldNames =
      ∑ name ∈ t.declaredFields, if name ∈ f.accessedFields then 1 else 0 := by
  have hnodup : t.fieldNames.Nodup := nodup_firstOccurrences _
  have hnames : t.declaredFields = t.fieldNames.toFinset := by
    ext name
    rw [declaredFields, List.mem_toFinset, List.mem_toFinset, fieldNames, mem_firstOccurrences]
  rw [Method.accessCount, List.countP_eq_length_filter,
    ← List.toFinset_card_of_nodup (hnodup.filter _), List.toFinset_filter, ← hnames,
    ← Finset.card_filter]
  simp only [decide_eq_true_eq]

/-- The accesses of all methods are those of all fields. -/
theorem accessTotal_eq_sum (t : TypeDecl) :
    t.accessTotal = ∑ name ∈ t.declaredFields, t.accessorCount name := by
  rw [accessTotal]
  unfold accessorCount
  induction t.methods with
  | nil => simp
  | cons f rest ih =>
    rw [List.map_cons, List.foldr_cons, ih, accessCount_eq_sum, ← Finset.sum_add_distrib]
    apply Finset.sum_congr rfl
    intro name _
    rw [List.countP_cons, Nat.add_comm]
    simp only [decide_eq_true_eq]

theorem accessorCount_le (t : TypeDecl) (name : String) :
    t.accessorCount name ≤ t.methods.length :=
  List.countP_le_length

section

variable (hmethods : t'.methods.length = t.methods.length)
  (hfields : t'.fields.length = t.fields.length) (hnames : t'.declaredFields = t.declaredFields)

include hmethods hfields hnames

theorem lcom3_congr
    (hcount : ∀ name ∈ t.declaredFields, t'.accessorCount name = t.accessorCount name) :
    t'.lcom3 = t.lcom3 := by
  have htotal : t'.accessTotal = t.accessTotal := by
    rw [accessTotal_eq_sum, accessTotal_eq_sum, hnames]
    exact Finset.sum_congr rfl hcount
  by_cases h : t.methods.length ≤ 1 ∨ t.fields.length ≤ 1
  · rw [lcom3_eq_zero h, lcom3_eq_zero (by omega)]
  · rw [lcom3_eq_rawLcom3 (by omega) (by omega), lcom3_eq_rawLcom3 (by omega) (by omega)]
    simp only [rawLcom3, accessShare, hmethods, hfields, htotal]

/-- More accesses among as many pairs are no less cohesion. -/
theorem lcom3_atMost
    (hcount : ∀ name ∈ t.declaredFields, t.accessorCount name ≤ t'.accessorCount name) :
    t'.lcom3.atMost t.lcom3 := by
  have htotal : t.accessTotal ≤ t'.accessTotal := by
    rw [accessTotal_eq_sum, accessTotal_eq_sum, hnames]
    exact Finset.sum_le_sum hcount
  by_cases h : t.methods.length ≤ 1 ∨ t.fields.length ≤ 1
  · rw [lcom3_eq_zero h, lcom3_eq_zero (by omega)]
    exact decide_eq_true (Int.le_refl _)
  · rw [lcom3_eq_rawLcom3 (by omega) (by omega), lcom3_eq_rawLcom3 (by omega) (by omega)]
    apply within_one.sub_atMost_sub (t.within_accessShare _) (t'.within_accessShare _)
    apply atMost_ofRatio
    rw [hmethods, hfields]
    exact Nat.mul_le_mul_right _ htotal

end

/-! ## Changes of a type -/

/-- The type with other accesses in the method between some others. -/
def withAccesses (t : TypeDecl) (before : List Method) (f : Method) (names : List String)
    (after : List Method) : TypeDecl :=
  { t with methods := before ++ { f with accessedFields := names } :: after }

/-- A change that leaves to each method, in whatever order they stand, the declared fields that it
accesses. They may be named in another order, more than once and among other names. -/
inductive KeepsAccesses (t : TypeDecl) : TypeDecl → Prop
  | methods {methods : List Method} (h : methods.Perm t.methods) :
    t.KeepsAccesses { t with methods }
  | fields {fields : List Field} (h : fields.Perm t.fields) :
    t.KeepsAccesses { t with fields }
  | accesses {before after : List Method} {f : Method} {names : List String}
    (hmethods : t.methods = before ++ f :: after)
    (h : ∀ name ∈ t.declaredFields, name ∈ names ↔ name ∈ f.accessedFields) :
    t.KeepsAccesses (t.withAccesses before f names after)

/-- A change of one method that accesses one more declared field, or several, beside those that it
did. -/
inductive GainsAccesses (t : TypeDecl) : TypeDecl → Prop
  | accesses {before after : List Method} {f : Method} {names : List String}
    (hmethods : t.methods = before ++ f :: after)
    (h : ∀ name ∈ t.declaredFields, name ∈ f.accessedFields → name ∈ names) :
    t.GainsAccesses (t.withAccesses before f names after)

section

variable {before after : List Method} {f : Method} (names : List String)

theorem accessorCount_withAccesses (hmethods : t.methods = before ++ f :: after) (name : String) :
    (t.withAccesses before f names after).accessorCount name +
        (if name ∈ f.accessedFields then 1 else 0) =
      t.accessorCount name + if name ∈ names then 1 else 0 := by
  rw [accessorCount, accessorCount, withAccesses, hmethods]
  simp only [List.countP_append, List.countP_cons, decide_eq_true_eq]
  omega

theorem length_methods_withAccesses (hmethods : t.methods = before ++ f :: after) :
    (t.withAccesses before f names after).methods.length = t.methods.length := by
  rw [withAccesses, hmethods, List.length_append, List.length_append]
  rfl

end

theorem KeepsAccesses.lcom3_eq (h : t.KeepsAccesses t') : t'.lcom3 = t.lcom3 := by
  cases h with
  | methods hperm => exact lcom3_congr hperm.length_eq rfl rfl fun name _ => hperm.countP_eq _
  | fields hperm =>
    have hnames := List.toFinset_eq_of_perm _ _ (hperm.map (·.name))
    exact lcom3_congr rfl hperm.length_eq hnames fun name _ => rfl
  | @accesses _ _ _ names hmethods hnames =>
    apply lcom3_congr (length_methods_withAccesses names hmethods) rfl rfl
    intro name hname
    have hcount := accessorCount_withAccesses names hmethods name
    rw [if_congr (hnames name hname) rfl rfl] at hcount
    exact Nat.add_right_cancel hcount

theorem lcom3_eq_of_keepsAccesses (h : ReflTransGen KeepsAccesses t t') : t'.lcom3 = t.lcom3 := by
  induction h with
  | refl => rfl
  | tail _ hstep ih => rw [hstep.lcom3_eq, ih]

theorem GainsAccesses.lcom3_atMost (h : t.GainsAccesses t') : t'.lcom3.atMost t.lcom3 := by
  cases h with
  | @accesses _ _ f names hmethods hnames =>
    apply TypeDecl.lcom3_atMost (length_methods_withAccesses names hmethods) rfl rfl
    intro name hname
    have hcount := accessorCount_withAccesses names hmethods name
    have hgain := hnames name hname
    by_cases haccessed : name ∈ f.accessedFields
    · rw [if_pos haccessed, if_pos (hgain haccessed)] at hcount
      omega
    · rw [if_neg haccessed] at hcount
      omega

/-- How the lack of cohesion comes from the accesses. The bounds zero and one, which are enforced in
the end, are kept before that. -/
structure FollowsAccesses (t : TypeDecl) (hpairs : 0 < t.methods.length * t.fields.length) :
    Prop where
  accessTotal : t.accessTotal = ∑ name ∈ t.declaredFields, t.accessorCount name
  accessTotal_le : t.accessTotal ≤ t.methods.length * t.fields.length
  isShare : (t.rawLcom3 hpairs).IsShare
  floored : (if zero.below (t.rawLcom3 hpairs) then t.rawLcom3 hpairs else zero) =
    t.rawLcom3 hpairs
  capped : (if (t.rawLcom3 hpairs).below one then t.rawLcom3 hpairs else one) = t.rawLcom3 hpairs
  lcom3 : t.lcom3 = t.rawLcom3 hpairs
  unchanged : ∀ t', ReflTransGen KeepsAccesses t t' → t'.lcom3 = t.lcom3
  not_greater : ∀ t', t.GainsAccesses t' → t'.lcom3.atMost t.lcom3

/-- The lack of cohesion of a type with several methods and fields is one less the share of
accesses, between zero and one by itself. It stays the same through any number of changes that leave
the accesses of the declared fields as they are, and it is not greater when a method accesses
more. -/
theorem followsAccesses_of_two_le (hmethods : 2 ≤ t.methods.length)
    (hfields : 2 ≤ t.fields.length) : t.FollowsAccesses (pairs_pos hmethods hfields) where
  accessTotal := t.accessTotal_eq_sum
  accessTotal_le := t.accessTotal_le
  isShare := (t.within_rawLcom3 _).isShare
  floored := (t.within_rawLcom3 _).floored_eq
  capped := (t.within_rawLcom3 _).capped_eq
  lcom3 := lcom3_eq_rawLcom3 hmethods hfields
  unchanged _ := lcom3_eq_of_keepsAccesses
  not_greater _ := GainsAccesses.lcom3_atMost

/-- Two fields, an access that is repeated and one of a name that is no field. -/
def account : TypeDecl where
  fullName := "Account"
  fields := [{ name := "balance" }, { name := "owner" }]
  methods := [
    { fullName := "Account.deposit", accessedFields := ["balance", "log", "balance"] },
    { fullName := "Account.close", accessedFields := ["owner", "balance"] },
    { fullName := "Account.print" }]

theorem followsAccesses_account :
    2 ≤ account.methods.length ∧ 2 ≤ account.fields.length ∧
      account.FollowsAccesses (pairs_pos (by decide) (by decide)) := by
  have hmethods : 2 ≤ account.methods.length := by decide
  have hfields : 2 ≤ account.fields.length := by decide
  exact ⟨hmethods, hfields, followsAccesses_of_two_le hmethods hfields⟩

/-! ## Against the definition -/

/-- Over all declared fields, how many methods access the field. -/
def fieldAccessTotal (t : TypeDecl) : Nat :=
  (t.fields.map fun field => t.accessorCount field.name).sum

/-- No method accesses a field whose name is declared again. -/
def RepeatsUnaccessed (t : TypeDecl) : Prop :=
  ∀ name, 1 < (t.fields.map (·.name)).count name → t.accessorCount name = 0

/-- Every method accesses every field. -/
def FullyAccessed (t : TypeDecl) : Prop :=
  ∀ f ∈ t.methods, ∀ field ∈ t.fields, field.name ∈ f.accessedFields

instance (t : TypeDecl) : Decidable t.FullyAccessed :=
  inferInstanceAs (Decidable (∀ f ∈ t.methods, _))

/-- A name counts as often as it is declared. -/
theorem fieldAccessTotal_eq_sum (t : TypeDecl) :
    t.fieldAccessTotal =
      ∑ name ∈ t.declaredFields, (t.fields.map (·.name)).count name * t.accessorCount name := by
  have hnames : (t.fields.map fun field => t.accessorCount field.name) =
      (t.fields.map (·.name)).map t.accessorCount := by
    rw [List.map_map]
    rfl
  rw [fieldAccessTotal, hnames, Finset.sum_list_map_count]
  rfl

theorem one_le_count (hname : name ∈ t.declaredFields) :
    1 ≤ (t.fields.map (·.name)).count name :=
  List.one_le_count_iff.2 (List.mem_toFinset.1 hname)

theorem accessTotal_le_fieldAccessTotal (t : TypeDecl) : t.accessTotal ≤ t.fieldAccessTotal := by
  rw [accessTotal_eq_sum, fieldAccessTotal_eq_sum]
  apply Finset.sum_le_sum
  intro name hname
  exact Nat.le_mul_of_pos_left _ (one_le_count hname)

theorem fieldAccessTotal_le (t : TypeDecl) :
    t.fieldAccessTotal ≤ t.methods.length * t.fields.length := by
  have hle : ∀ count ∈ t.fields.map fun field => t.accessorCount field.name,
      count ≤ t.methods.length := by
    intro count hcount
    obtain ⟨field, -, rfl⟩ := List.mem_map.1 hcount
    exact t.accessorCount_le field.name
  have hsum := List.sum_le_card_nsmul _ _ hle
  rw [List.length_map] at hsum
  rw [Nat.mul_comm]
  exact hsum

theorem accessTotal_eq_fieldAccessTotal_iff (t : TypeDecl) :
    t.accessTotal = t.fieldAccessTotal ↔ t.RepeatsUnaccessed := by
  have hle : ∀ name ∈ t.declaredFields, t.accessorCount name ≤
      (t.fields.map (·.name)).count name * t.accessorCount name := by
    intro name hname
    exact Nat.le_mul_of_pos_left _ (one_le_count hname)
  rw [accessTotal_eq_sum, fieldAccessTotal_eq_sum, Finset.sum_eq_sum_iff_of_le hle]
  constructor
  · intro h name hcount
    have hname : name ∈ t.declaredFields :=
      List.mem_toFinset.2 (List.one_le_count_iff.1 (Nat.le_of_lt hcount))
    by_contra hne
    have hlt := Nat.mul_lt_mul_of_pos_right hcount (Nat.pos_of_ne_zero hne)
    have heq := h name hname
    omega
  · intro h name hname
    rcases Nat.lt_or_eq_of_le (one_le_count hname) with hlt | heq
    · rw [h name hlt, Nat.mul_zero]
    · rw [← heq, Nat.one_mul]

/-- In a type that is fully accessed all methods access each name. -/
theorem FullyAccessed.accessTotal_eq (h : t.FullyAccessed) :
    t.accessTotal = t.declaredFields.card * t.methods.length := by
  rw [accessTotal_eq_sum]
  apply Finset.sum_const_nat
  intro name hname
  obtain ⟨field, hfield, rfl⟩ := List.mem_map.1 (List.mem_toFinset.1 hname)
  apply List.countP_eq_length.2
  intro f hf
  exact decide_eq_true (h f hf field hfield)

theorem card_declaredFields_le (t : TypeDecl) : t.declaredFields.card ≤ t.fields.length := by
  have hle := List.toFinset_card_le (t.fields.map (·.name))
  rwa [List.length_map] at hle

theorem card_declaredFields_eq_iff (t : TypeDecl) :
    t.declaredFields.card = t.fields.length ↔ (t.fields.map (·.name)).Nodup := by
  rw [← Multiset.coe_nodup, ← Multiset.toFinset_card_eq_card_iff_nodup, Multiset.coe_card,
    List.length_map]
  rfl

theorem FullyAccessed.rawLcom3_eq (h : t.FullyAccessed) (hmethods : 2 ≤ t.methods.length)
    (hfields : 2 ≤ t.fields.length) :
    t.rawLcom3 (pairs_pos hmethods hfields) =
      one - ofRatio t.declaredFields.card t.fields.length (by omega) := by
  rw [rawLcom3, accessShare]
  simp only [h.accessTotal_eq, Nat.mul_comm t.methods.length]
  rw [ofRatio_mul _ (by omega) (by omega)]

/-- What the lack of cohesion measures. It counts each name of a field once, so that it is not less
than the definition has it, and the same where the numbers of accesses are. -/
structure MeasuresCohesion (t : TypeDecl) : Prop where
  computed : ∃ share,
    share.IsQuotient (∑ name ∈ t.declaredFields, t.accessorCount name)
      (t.methods.length * t.fields.length) ∧
    t.lcom3 = one - share
  defined : ∃ share,
    share.IsQuotient t.fieldAccessTotal (t.methods.length * t.fields.length) ∧
    (one - share).atMost t.lcom3 ∧ (t.RepeatsUnaccessed → t.lcom3 = one - share)
  total_eq_iff :
    ∑ name ∈ t.declaredFields, t.accessorCount name = t.fieldAccessTotal ↔ t.RepeatsUnaccessed
  fullyAccessed : t.FullyAccessed → ∃ share,
    share.IsQuotient t.declaredFields.card t.fields.length ∧ t.lcom3 = one - share
  eq_zero : t.FullyAccessed → (t.fields.map (·.name)).Nodup → t.lcom3 = zero
  nodup : t.FullyAccessed → t.fields.length ≤ 2 ^ (53 : Nat) → t.lcom3 = zero →
    (t.fields.map (·.name)).Nodup

/-- The lack of cohesion of a type with several methods and fields is one less the rounded share of
accesses, with the accesses of a name counted once and the pairs counted with all declarations. It
is the one of the definition when no accessed field is declared again; else it may be greater. A
type in which every method accesses every field has a lack of cohesion exactly when a field is
declared again, as long as the number of fields is exact as a double. -/
theorem measuresCohesion_of_two_le (hmethods : 2 ≤ t.methods.length)
    (hfields : 2 ≤ t.fields.length) : t.MeasuresCohesion := by
  have hpairs := pairs_pos hmethods hfields
  have hdefined := within_ofRatio_of_le (Int.natCast_pos.2 hpairs) t.fieldAccessTotal_le
  have hcomplete := within_ofRatio_of_le (by omega) t.card_declaredFields_le
  have hshare := t.within_accessShare hpairs
  have hraw := lcom3_eq_rawLcom3 hmethods hfields
  refine
    { computed := ?_
      defined := ?_
      total_eq_iff := ?_
      fullyAccessed := fun h => ?_
      eq_zero := fun h hnodup => ?_
      nodup := fun h hlength hzero => ?_ }
  · rw [← accessTotal_eq_sum]
    exact ⟨_, isQuotient_ofRatio hshare.isFinite, hraw⟩
  · refine ⟨_, isQuotient_ofRatio hdefined.isFinite, ?_, fun hrepeats => ?_⟩
    · rw [hraw]
      apply within_one.sub_atMost_sub hshare hdefined
      apply atMost_ofRatio
      exact Nat.mul_le_mul_right _ t.accessTotal_le_fieldAccessTotal
    · rw [hraw, rawLcom3, accessShare]
      simp only [t.accessTotal_eq_fieldAccessTotal_iff.2 hrepeats]
  · rw [← accessTotal_eq_sum]
    exact t.accessTotal_eq_fieldAccessTotal_iff
  · exact ⟨_, isQuotient_ofRatio hcomplete.isFinite,
      hraw.trans (h.rawLcom3_eq hmethods hfields)⟩
  · rw [hraw, h.rawLcom3_eq hmethods hfields]
    simp only [t.card_declaredFields_eq_iff.2 hnodup]
    exact one_sub_ofRatio_self _
  · by_contra hnot
    have hlt : t.declaredFields.card < t.fields.length :=
      Nat.lt_of_le_of_ne t.card_declaredFields_le (mt t.card_declaredFields_eq_iff.1 hnot)
    have hpositive := within_one.sub_rank_pos hcomplete (rank_ofRatio_lt _ hlt hlength)
    rw [← h.rawLcom3_eq hmethods hfields, ← hraw, hzero, rank_zero] at hpositive
    exact Int.lt_irrefl 0 hpositive

/-- A field that is declared twice, and two methods that access it. -/
def redeclared : TypeDecl where
  fullName := "Point"
  fields := [{ name := "x" }, { name := "x" }]
  methods := [{ fullName := "Point.get", accessedFields := ["x"] },
    { fullName := "Point.set", accessedFields := ["x"] }]

theorem measuresCohesion_redeclared :
    2 ≤ redeclared.methods.length ∧ 2 ≤ redeclared.fields.length ∧ redeclared.MeasuresCohesion := by
  have hmethods : 2 ≤ redeclared.methods.length := by decide
  have hfields : 2 ≤ redeclared.fields.length := by decide
  exact ⟨hmethods, hfields, measuresCohesion_of_two_le hmethods hfields⟩

/-- Both methods access all fields, and yet there is a lack of cohesion that the definition does not
have. -/
theorem lcom3_redeclared :
    2 ≤ redeclared.methods.length ∧ 2 ≤ redeclared.fields.length ∧ redeclared.FullyAccessed ∧
    (∀ share : Binary64,
      share.IsQuotient redeclared.fieldAccessTotal
        (redeclared.methods.length * redeclared.fields.length) →
      redeclared.lcom3 ≠ one - share) ∧
    redeclared.lcom3 = ofRatio 1 2 (by decide) ∧ redeclared.lcom3 ≠ zero := by
  have hfinite : (ofRatio redeclared.fieldAccessTotal
      (redeclared.methods.length * redeclared.fields.length : Nat) (by decide)).isFinite := by
    decide +kernel
  refine ⟨by decide, by decide, by decide, ?_, by decide +kernel, by decide +kernel⟩
  intro share hshare
  rw [(isQuotient_iff hfinite).1 hshare]
  decide +kernel

end TypeDecl

end DesignMetrics
