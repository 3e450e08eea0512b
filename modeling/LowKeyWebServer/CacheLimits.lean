import LowKeyWebServer.CacheRule

/-!
# What the limits of a request promise

`can_use`, against the directives of the request (`allowed_iff`), the age of the page
(`ageing_iff`) and the values of the limits (`raised_limits`).
-/

namespace LowKeyWebServer

open Std

namespace ProxyHandler

variable {cache : Cache} {hdrs : StringMap Int} {uri : Bytes} {mustValidate : Bool} {page : CachedPage}

/-! ## The decision -/

/-- `cache_control` sets `can_use`. -/
def CanUse (cache : Cache) (hdrs : StringMap Int) (uri : Bytes) (mustValidate : Bool) (clock : Clock) :
    Prop :=
  (cacheControl cache hdrs uri mustValidate clock).canUse = true

instance (clock : Clock) : Decidable (CanUse cache hdrs uri mustValidate clock) := by
  unfold CanUse
  infer_instance

/-- **When a page that is present is used.** -/
theorem canUse_iff (hdrs : StringMap Int) (mustValidate : Bool) (clock : Clock)
    (hpage : cache[uri]? = some page) :
    CanUse cache hdrs uri mustValidate clock ↔
      mustValidate = false ∧ directive hdrs (str "no-store") = 0 ∧ ¬ Unfit hdrs page clock := by
  rw [CanUse]
  cases mustValidate with
  | true => simp [cacheControl_none hdrs clock (Or.inl rfl)]
  | false =>
    rw [cacheControl_some hdrs clock rfl hpage, ← checkAge_iff, Bool.not_eq_false]
    by_cases hstore : directive hdrs (str "no-store") = 0
    · simp [hstore]
    · simp [hstore]

theorem directive_of_getElem? {name : Bytes} {val : Int} (h : hdrs[name]? = some val) :
    directive hdrs name = val := by
  rw [directive, TreeMap.getD_eq_getD_getElem?, h, Option.getD_some]

/-! ## The directives -/

/-- The page is allowed by every directive that is present. -/
structure Allowed (hdrs : StringMap Int) (page : CachedPage) (clock : Clock) : Prop where
  noCache : str "no-cache" ∉ hdrs
  noStore : str "no-store" ∉ hdrs
  maxAge : ∀ val ∈ hdrs[str "max-age"]?, 0 ≤ val → page.isExpired val clock.isExpired = false
  maxStale : ∀ val ∈ hdrs[str "max-stale"]?, 0 ≤ val → page.couldStale val clock.couldStale = true
  minFresh : ∀ val ∈ hdrs[str "min-fresh"]?, 0 ≤ val → page.isFresh val clock.isFresh = true

/-- A directive that `cache_control` passes over forbids the page: `no-cache` by its caller, or
one with the value zero, or one of the two that `min-fresh` overrules. -/
inductive PassedOver (hdrs : StringMap Int) (page : CachedPage) (clock : Clock) : Prop where
  | noCache (h : str "no-cache" ∈ hdrs)
  | noStore (h : hdrs[str "no-store"]? = some 0)
  | maxAge {val : Int} (h : hdrs[str "max-age"]? = some val) (hval : 0 ≤ val)
      (hover : val = 0 ∨ directive hdrs (str "min-fresh") ≠ 0)
      (hexpired : page.isExpired val clock.isExpired = true)
  | maxStale {val : Int} (h : hdrs[str "max-stale"]? = some val) (hval : 0 ≤ val)
      (hover : val = 0 ∨ directive hdrs (str "min-fresh") ≠ 0)
      (hstale : page.couldStale val clock.couldStale = false)
  | minFresh (h : hdrs[str "min-fresh"]? = some 0) (hfresh : page.isFresh 0 clock.isFresh = false)

/-- What is not passed over is looked at. -/
theorem allowed_of_fit {clock : Clock} (hstore : directive hdrs (str "no-store") = 0)
    (hfit : ¬ Unfit hdrs page clock) (hover : ¬ PassedOver hdrs page clock) :
    Allowed hdrs page clock := by
  rw [Unfit] at hfit
  constructor
  · exact fun hmem => hover (.noCache hmem)
  · intro hmem
    obtain ⟨val, hval⟩ := Option.isSome_iff_exists.mp (TreeMap.mem_iff_isSome_getElem?.mp hmem)
    obtain rfl := (directive_of_getElem? hval).symm.trans hstore
    exact hover (.noStore hval)
  · intro val hval hnonneg
    by_contra hexpired
    rw [Bool.not_eq_false] at hexpired
    by_cases hskip : val = 0 ∨ directive hdrs (str "min-fresh") ≠ 0
    · exact hover (.maxAge hval hnonneg hskip hexpired)
    · rw [not_or, not_not] at hskip
      rw [if_neg (not_not.mpr hskip.2), directive_of_getElem? hval] at hfit
      exact hfit (Or.inl ⟨hskip.1, hexpired⟩)
  · intro val hval hnonneg
    by_contra hstale
    rw [Bool.not_eq_true] at hstale
    by_cases hskip : val = 0 ∨ directive hdrs (str "min-fresh") ≠ 0
    · exact hover (.maxStale hval hnonneg hskip hstale)
    · rw [not_or, not_not] at hskip
      rw [if_neg (not_not.mpr hskip.2), directive_of_getElem? hval] at hfit
      exact hfit (Or.inr (Or.inl ⟨hskip.1, hstale⟩))
  · intro val hval _
    by_contra hfresh
    rw [Bool.not_eq_true] at hfresh
    by_cases hzero : val = 0
    · subst hzero
      exact hover (.minFresh hval hfresh)
    · rw [directive_of_getElem? hval, if_pos hzero] at hfit
      exact hfit hfresh

theorem Allowed.not_passedOver {clock : Clock} (h : Allowed hdrs page clock) :
    ¬ PassedOver hdrs page clock := by
  intro hover
  cases hover with
  | noCache hmem => exact h.noCache hmem
  | noStore hval => exact h.noStore (TreeMap.mem_iff_isSome_getElem?.mpr (by rw [hval]; rfl))
  | maxAge hval hnonneg _ hexpired =>
    rw [h.maxAge _ hval hnonneg] at hexpired
    exact Bool.false_ne_true hexpired
  | maxStale hval hnonneg _ hstale =>
    rw [h.maxStale _ hval hnonneg] at hstale
    exact Bool.false_ne_true hstale.symm
  | minFresh hval hfresh =>
    rw [h.minFresh _ hval (Int.le_refl 0)] at hfresh
    exact Bool.false_ne_true hfresh.symm

/-- **When only allowed pages are used**: if the page is refused by what is looked at, or no
directive that is passed over forbids it. -/
theorem allowed_iff (hdrs : StringMap Int) (mustValidate : Bool) (clock : Clock)
    (hpage : cache[uri]? = some page) :
    (CanUse cache hdrs uri mustValidate clock → Allowed hdrs page clock) ↔
      mustValidate = true ∨ directive hdrs (str "no-store") ≠ 0 ∨ Unfit hdrs page clock ∨
        ¬ PassedOver hdrs page clock := by
  rw [canUse_iff hdrs mustValidate clock hpage]
  constructor
  · intro hallowed
    by_cases huse : mustValidate = false ∧ directive hdrs (str "no-store") = 0 ∧ ¬ Unfit hdrs page clock
    · exact Or.inr (Or.inr (Or.inr (hallowed huse).not_passedOver))
    · rw [not_and_or, not_and_or, not_not, Bool.not_eq_false] at huse
      obtain hv | hstore | hunfit := huse
      · exact Or.inl hv
      · exact Or.inr (Or.inl hstore)
      · exact Or.inr (Or.inr (Or.inl hunfit))
  · rintro hcond ⟨hv, hstore, hfit⟩
    rcases hcond with hv' | hstore' | hunfit | hover
    · rw [hv] at hv'
      exact absurd hv' Bool.false_ne_true
    · exact absurd hstore hstore'
    · exact absurd hunfit hfit
    · exact allowed_of_fit hstore hfit hover

/-! ### One page -/

/-- A cache that holds a page of time zero, with no lifetime. -/
def newCache : Cache := (∅ : Cache).insert (str "/") AgeLimit.newPage

theorem getElem?_newCache : newCache[str "/"]? = some AgeLimit.newPage := TreeMap.getElem?_insert_self

/-- All readings are the same. -/
def still (now : Int) : Clock := ⟨now, now, now, now⟩

/-- One directive. -/
def single (name : Bytes) (val : Int) : StringMap Int := (∅ : StringMap Int).insert name val

/-- The theorem at a page that is young enough. -/
theorem allowed_young :
    CanUse newCache (single (str "max-age") 10) (str "/") false (still 5) ∧
      Allowed (single (str "max-age") 10) AgeLimit.newPage (still 5) := by
  have huse : CanUse newCache (single (str "max-age") 10) (str "/") false (still 5) :=
    (canUse_iff _ _ _ getElem?_newCache).mpr (by decide)
  refine ⟨huse, (allowed_iff _ _ _ getElem?_newCache).mpr (Or.inr (Or.inr (Or.inr ?_))) huse⟩
  have hother : ∀ name, name ≠ str "max-age" → (single (str "max-age") 10)[name]? = none := by
    intro name hname
    rw [single, TreeMap.getElem?_insert, if_neg fun heq => hname (LawfulEqCmp.eq_of_compare heq).symm]
    exact TreeMap.getElem?_emptyc
  intro hover
  cases hover with
  | noCache hmem =>
    rw [TreeMap.mem_iff_isSome_getElem?, hother _ (by decide)] at hmem
    cases hmem
  | noStore hval => cases (hother _ (by decide)).symm.trans hval
  | maxAge hval _ _ hexpired =>
    rw [single, TreeMap.getElem?_insert_self] at hval
    obtain rfl := Option.some.inj hval
    exact absurd hexpired (by decide)
  | maxStale hval => cases (hother _ (by decide)).symm.trans hval
  | minFresh hval => cases (hother _ (by decide)).symm.trans hval

/-- With `max-age=0` an old page is used. -/
theorem not_allowed_zero :
    ¬ ∀ (cache : Cache) (hdrs : StringMap Int) (uri : Bytes) (page : CachedPage) (now : Int),
      cache[uri]? = some page →
      CanUse cache hdrs uri (decide (directive hdrs (str "no-cache") ≠ 0)) (still now) →
      Allowed hdrs page (still now) := by
  intro hall
  have hallowed := hall newCache (single (str "max-age") 0) (str "/") _ 1 getElem?_newCache
    ((canUse_iff _ _ _ getElem?_newCache).mpr (by decide))
  have hexpired := hallowed.maxAge 0 TreeMap.getElem?_insert_self (Int.le_refl 0)
  exact absurd hexpired (by decide)

/-! ## Ageing -/

/-- A page becomes usable from one time to a later one: `min-fresh` seconds have passed since it
was stored, or the `int` in `couldStale` has wrapped below `max-stale`. -/
def Revives (hdrs : StringMap Int) (page : CachedPage) (now later : Int) : Prop :=
  let maxAge := directive hdrs (str "max-age")
  let maxStale := directive hdrs (str "max-stale")
  let minFresh := directive hdrs (str "min-fresh")
  if minFresh ≠ 0 then now ≤ page.timeStart + minFresh ∧ page.timeStart + minFresh < later
  else
    maxStale ≠ 0 ∧ (maxAge ≠ 0 → later - page.timeStart ≤ maxAge ∧ maxAge ≤ maxStale) ∧
      toInt32 (later - page.timeStart - page.maxAge) < maxStale ∧
      maxStale ≤ toInt32 (now - page.timeStart - page.maxAge)

instance (hdrs : StringMap Int) (page : CachedPage) (now later : Int) :
    Decidable (Revives hdrs page now later) := by
  unfold Revives
  infer_instance

theorem isExpired_iff {max now : Int} : page.isExpired max now = true ↔ max < now - page.timeStart :=
  decide_eq_true_iff

theorem isFresh_false_iff {minFresh now : Int} :
    page.isFresh minFresh now = false ↔ now ≤ page.timeStart + minFresh :=
  decide_eq_false_iff_not.trans Int.not_lt

theorem couldStale_false_iff {maxStale now : Int} :
    page.couldStale maxStale now = false ↔ maxStale ≤ toInt32 (now - page.timeStart - page.maxAge) :=
  decide_eq_false_iff_not.trans Int.not_lt

/-- One page at two times. -/
theorem revives_iff (hdrs : StringMap Int) (page : CachedPage) {now later : Int} (hle : now ≤ later) :
    Unfit hdrs page (still now) ∧ ¬ Unfit hdrs page (still later) ↔ Revives hdrs page now later := by
  rw [Unfit, Unfit, Revives]
  by_cases hfresh : directive hdrs (str "min-fresh") = 0
  · simp only [hfresh, ne_eq, not_true_eq_false, if_false, still, isExpired_iff, couldStale_false_iff]
    omega
  · simp only [hfresh, ne_eq, not_false_eq_true, if_true, still, isFresh_false_iff]
    omega

/-- **When ageing does not make a page usable.** -/
theorem ageing_iff (hdrs : StringMap Int) (mustValidate : Bool) (hpage : cache[uri]? = some page)
    {now later : Int} (hle : now ≤ later) :
    (CanUse cache hdrs uri mustValidate (still later) → CanUse cache hdrs uri mustValidate (still now)) ↔
      mustValidate = true ∨ directive hdrs (str "no-store") ≠ 0 ∨ ¬ Revives hdrs page now later := by
  rw [canUse_iff hdrs mustValidate _ hpage, canUse_iff hdrs mustValidate _ hpage, ← revives_iff hdrs page hle,
    ← Bool.not_eq_false]
  tauto

/-- The theorem at a page that `max-age` lets age. -/
theorem ageing_young :
    CanUse newCache (single (str "max-age") 10) (str "/") false (still 9) ∧
      CanUse newCache (single (str "max-age") 10) (str "/") false (still 5) := by
  have huse : CanUse newCache (single (str "max-age") 10) (str "/") false (still 9) :=
    (canUse_iff _ _ _ getElem?_newCache).mpr (by decide)
  exact ⟨huse, (ageing_iff _ false getElem?_newCache (by decide)).mpr (Or.inr (Or.inr (by decide))) huse⟩

/-- With `min-fresh` a page is not used when it is new, but when it is old. -/
theorem not_ageing_fresh :
    ¬ ∀ (cache : Cache) (hdrs : StringMap Int) (uri : Bytes) (page : CachedPage) (now later : Int),
      cache[uri]? = some page → page.timeStart ≤ now → now ≤ later →
      CanUse cache hdrs uri (decide (directive hdrs (str "no-cache") ≠ 0)) (still later) →
      CanUse cache hdrs uri (decide (directive hdrs (str "no-cache") ≠ 0)) (still now) := by
  intro hall
  have huse := hall newCache (single (str "min-fresh") 10) (str "/") _ 0 11 getElem?_newCache
    (by decide) (by decide) ((canUse_iff _ _ _ getElem?_newCache).mpr (by decide))
  exact ((canUse_iff _ _ _ getElem?_newCache).mp huse).2.2 (by decide)

/-! ## Raised limits -/

theorem directive_insert_self (hdrs : StringMap Int) (name : Bytes) (val : Int) :
    directive (hdrs.insert name val) name = val := TreeMap.getD_insert_self

theorem directive_insert_of_ne {name other : Bytes} (hne : name ≠ other) (hdrs : StringMap Int)
    (val : Int) : directive (hdrs.insert name val) other = directive hdrs other := by
  rw [directive, TreeMap.getD_insert, if_neg fun heq => hne (LawfulEqCmp.eq_of_compare heq), directive]

/-- The couldStale bound grows with `max-stale`, whatever the `int` in it is. -/
theorem couldStale_mono {stale stale' now : Int} (hle : stale ≤ stale')
    (h : page.couldStale stale' now = false) : page.couldStale stale now = false := by
  rw [couldStale_false_iff] at h ⊢
  exact Int.le_trans hle h

/-- A page that `max-stale` allows is allowed by a higher one. -/
theorem unfit_raise_maxStale {clock : Clock} {val : Int}
    (hpos : 0 < directive hdrs (str "max-stale")) (hle : directive hdrs (str "max-stale") ≤ val)
    (h : Unfit (hdrs.insert (str "max-stale") val) page clock) : Unfit hdrs page clock := by
  have hage : str "max-stale" ≠ str "max-age" := by decide
  have hfresh : str "max-stale" ≠ str "min-fresh" := by decide
  rw [Unfit, directive_insert_of_ne hage, directive_insert_of_ne hfresh, directive_insert_self] at h
  rw [Unfit]
  split
  · next hmin => rwa [if_pos hmin] at h
  · next hmin =>
    rw [if_neg hmin] at h
    rcases h with hexpired | ⟨-, hcould⟩ | ⟨hgiven, -, hlt⟩
    · exact Or.inl hexpired
    · exact Or.inr (Or.inl ⟨by omega, couldStale_mono hle hcould⟩)
    · exact Or.inr (Or.inr ⟨hgiven, by omega, by omega⟩)

/-- A page that `max-age` allows is allowed by a higher one, unless that passes `max-stale`. -/
theorem unfit_raise_maxAge {clock : Clock} {val : Int} (hfit : ¬ Unfit hdrs page clock)
    (hpos : 0 < directive hdrs (str "max-age")) (hle : directive hdrs (str "max-age") ≤ val) :
    Unfit (hdrs.insert (str "max-age") val) page clock ↔
      directive hdrs (str "min-fresh") = 0 ∧ directive hdrs (str "max-stale") ≠ 0 ∧
        directive hdrs (str "max-stale") < val := by
  have hstale : str "max-age" ≠ str "max-stale" := by decide
  have hfresh : str "max-age" ≠ str "min-fresh" := by decide
  rw [Unfit] at hfit
  rw [Unfit, directive_insert_of_ne hstale, directive_insert_of_ne hfresh, directive_insert_self]
  by_cases hmin : directive hdrs (str "min-fresh") = 0
  · rw [if_neg (not_not.mpr hmin), isExpired_iff] at hfit
    rw [if_neg (not_not.mpr hmin), isExpired_iff]
    constructor
    · rintro (⟨-, hexpired⟩ | ⟨hgiven, hcould⟩ | ⟨-, hgiven, hlt⟩)
      · exact absurd (Or.inl ⟨by omega, by omega⟩) hfit
      · exact absurd (Or.inr (Or.inl ⟨hgiven, hcould⟩)) hfit
      · exact ⟨hmin, hgiven, hlt⟩
    · rintro ⟨-, hgiven, hlt⟩
      exact Or.inr (Or.inr ⟨by omega, hgiven, hlt⟩)
  · rw [if_pos hmin] at hfit ⊢
    exact iff_of_false hfit fun h => hmin h.1

/-- **Raising a limit**: a page that is used is used with a higher `max-stale`, and with a higher
`max-age` unless that passes a `max-stale` that is looked at. -/
theorem raised_limits {clock : Clock} (hpage : cache[uri]? = some page)
    (huse : CanUse cache hdrs uri mustValidate clock) (val : Int) :
    (0 < directive hdrs (str "max-stale") → directive hdrs (str "max-stale") ≤ val →
      CanUse cache (hdrs.insert (str "max-stale") val) uri mustValidate clock) ∧
    (0 < directive hdrs (str "max-age") → directive hdrs (str "max-age") ≤ val →
      (CanUse cache (hdrs.insert (str "max-age") val) uri mustValidate clock ↔
        ¬ (directive hdrs (str "min-fresh") = 0 ∧ directive hdrs (str "max-stale") ≠ 0 ∧
          directive hdrs (str "max-stale") < val))) := by
  have hstale : str "max-stale" ≠ str "no-store" := by decide
  have hage : str "max-age" ≠ str "no-store" := by decide
  rw [canUse_iff hdrs mustValidate clock hpage] at huse
  obtain ⟨hv, hstore, hfit⟩ := huse
  rw [canUse_iff _ mustValidate clock hpage, canUse_iff _ mustValidate clock hpage,
    directive_insert_of_ne hstale, directive_insert_of_ne hage]
  constructor
  · exact fun hpos hle => ⟨hv, hstore, fun hunfit => hfit (unfit_raise_maxStale hpos hle hunfit)⟩
  · intro hpos hle
    rw [and_iff_right hv, and_iff_right hstore, unfit_raise_maxAge hfit hpos hle]

/-- The theorem at two limits that are far apart. -/
theorem raised_apart :
    CanUse newCache ((single (str "max-age") 10).insert (str "max-stale") 30) (str "/") false (still 5) ∧
    CanUse newCache (((single (str "max-age") 10).insert (str "max-stale") 30).insert (str "max-age") 20)
      (str "/") false (still 5) := by
  have huse : CanUse newCache ((single (str "max-age") 10).insert (str "max-stale") 30) (str "/") false
      (still 5) := (canUse_iff _ _ _ getElem?_newCache).mpr (by decide)
  exact ⟨huse, ((raised_limits getElem?_newCache huse 20).2 (by decide) (by decide)).mpr (by decide)⟩

/-- A `max-age` that passes `max-stale` loses the cache. -/
theorem not_raised_past :
    ¬ ∀ (cache : Cache) (hdrs : StringMap Int) (uri : Bytes) (page : CachedPage) (now val : Int),
      cache[uri]? = some page → 0 < directive hdrs (str "max-age") →
      directive hdrs (str "max-age") ≤ val →
      CanUse cache hdrs uri (decide (directive hdrs (str "no-cache") ≠ 0)) (still now) →
      CanUse cache (hdrs.insert (str "max-age") val) uri
        (decide (directive hdrs (str "no-cache") ≠ 0)) (still now) := by
  intro hall
  have huse := hall newCache ((single (str "max-age") 10).insert (str "max-stale") 20) (str "/") _ 5 30
    getElem?_newCache (by decide) (by decide) ((canUse_iff _ _ _ getElem?_newCache).mpr (by decide))
  exact ((canUse_iff _ _ _ getElem?_newCache).mp huse).2.2 (by decide)

end ProxyHandler

end LowKeyWebServer
