import LowKeyWebServer.CacheControlHeader
import LowKeyWebServer.CacheDirectives

/-!
# The rule that a request sets for the cache

What `cache_control` decides depends on the directives only through a `CacheRule`
(`cacheUse_eq`), and requests with different rules are told apart by some page at some time
(`CacheRule.use_injective`).
-/

namespace LowKeyWebServer

open Std

/-! ## The age of a page -/

/-- A bound for `couldStale` that some pages meet and others do not. -/
structure StaleBound : Type where
  val : Int
  low : -2 ^ 31 < val
  high : val < 2 ^ 31
  deriving DecidableEq

/-- The age that a request asks for. -/
inductive AgeLimit : Type where
  /-- no page is good to use -/
  | never
  /-- only `min-fresh` is looked at -/
  | fresh (minFresh : Int)
  /-- `max-age` and `max-stale`, each if it is given -/
  | between (maxAge : Option Int) (maxStale : Option StaleBound)
  deriving DecidableEq

namespace AgeLimit

/-- The page has the age that is asked for. -/
def allows : AgeLimit → CachedPage → Clock → Bool
  | never, _, _ => false
  | fresh minFresh, page, clock => page.isFresh minFresh clock.isFresh
  | between maxAge maxStale, page, clock =>
    maxAge.all (fun max => !page.isExpired max clock.isExpired) &&
      maxStale.all (fun stale => page.couldStale stale.val clock.couldStale)

/-- A value of zero is none. -/
def given (val : Int) : Option Int := if val = 0 then none else some val

/-- The limit that some values of the directives amount to. -/
def of (asked : Bytes → Int) : AgeLimit :=
  if asked (str "min-fresh") ≠ 0 then fresh (asked (str "min-fresh"))
  else if asked (str "max-stale") = 0 then between (given (asked (str "max-age"))) none
  else if h : -2 ^ 31 < asked (str "max-stale") ∧ asked (str "max-stale") < 2 ^ 31 then
    if asked (str "max-age") ≠ 0 → asked (str "max-age") ≤ asked (str "max-stale") then
      between (given (asked (str "max-age"))) (some ⟨asked (str "max-stale"), h.1, h.2⟩)
    else never
  else never

theorem given_all (val : Int) (p : Int → Bool) :
    (given val).all p = true ↔ (val ≠ 0 → p val = true) := by
  rw [given]
  by_cases hval : val = 0
  · simp [hval]
  · simp [hval]

theorem toInt32_bounds (x : Int) : -2 ^ 31 ≤ toInt32 x ∧ toInt32 x < 2 ^ 31 := by
  rw [toInt32]
  have hlow := Int.le_bmod (x := x) (m := 2 ^ 32) (by decide)
  have hhigh := Int.bmod_lt (x := x) (m := 2 ^ 32) (by decide)
  constructor <;> omega

/-- A bound that some page meets is above the least `int`. -/
theorem couldStale_low {page : CachedPage} {now stale : Int} (hlow : -2 ^ 31 ≤ stale)
    (hstale : page.couldStale stale now = true) : -2 ^ 31 < stale := by
  have hlt := of_decide_eq_true hstale
  have hbound := (toInt32_bounds (now - page.timeStart - page.maxAge)).1
  omega

/-- **What `checkAge` tests**, when the value of `max-stale` is an `int`. -/
theorem allows_of {hdrs : StringMap Int} (page : CachedPage) (clock : Clock)
    (hlow : -2 ^ 31 ≤ directive hdrs (str "max-stale"))
    (hhigh : directive hdrs (str "max-stale") < 2 ^ 31) :
    (AgeLimit.of (directive hdrs)).allows page clock = true ↔
      ¬ ProxyHandler.Unfit hdrs page clock := by
  rw [AgeLimit.of, ProxyHandler.Unfit]
  by_cases hfresh : directive hdrs (str "min-fresh") = 0
  · rw [if_neg (not_not.mpr hfresh), if_neg (not_not.mpr hfresh)]
    by_cases hstale : directive hdrs (str "max-stale") = 0
    · rw [if_pos hstale, allows, Option.all_none, Bool.and_true, given_all]
      simp [hstale]
    · rw [if_neg hstale]
      by_cases hbound : -2 ^ 31 < directive hdrs (str "max-stale") ∧
          directive hdrs (str "max-stale") < 2 ^ 31
      · rw [dif_pos hbound]
        by_cases hle : directive hdrs (str "max-age") ≠ 0 →
            directive hdrs (str "max-age") ≤ directive hdrs (str "max-stale")
        · rw [if_pos hle, allows, Option.all_some, Bool.and_eq_true, given_all]
          have hnot : ¬ (directive hdrs (str "max-age") ≠ 0 ∧ directive hdrs (str "max-stale") ≠ 0 ∧
              directive hdrs (str "max-stale") < directive hdrs (str "max-age")) := by
            rintro ⟨hage, -, hlt⟩
            exact absurd (hle hage) (by omega)
          rw [← or_assoc, or_iff_left hnot]
          simp [hstale]
        · rw [if_neg hle, allows]
          refine iff_of_false Bool.false_ne_true (not_not.mpr (Or.inr (Or.inr ⟨?_, hstale, ?_⟩)))
          · exact fun hage => hle fun hne => absurd hage hne
          · by_contra hlt
            exact hle fun _ => by omega
      · rw [dif_neg hbound, allows]
        refine iff_of_false Bool.false_ne_true (not_not.mpr (Or.inr (Or.inl ⟨hstale, ?_⟩)))
        apply Bool.of_not_eq_true
        exact fun hcould => hbound ⟨couldStale_low hlow hcould, hhigh⟩
  · rw [if_pos hfresh, if_pos hfresh, allows, Bool.not_eq_false]

/-! ### Telling limits apart -/

/-- A page that was stored at time zero, with no lifetime. -/
def newPage : CachedPage := ⟨noCache, 0, 0⟩

/-- The readings that are compared with a page. -/
def readings (couldStale isExpired isFresh : Int) : Clock := ⟨couldStale, isExpired, isFresh, 0⟩

theorem allows_fresh (min couldStale isExpired isFresh : Int) :
    (fresh min).allows newPage (readings couldStale isExpired isFresh) = decide (min < isFresh) := by
  simp [allows, newPage, readings, CachedPage.isFresh]

theorem allows_between (maxAge : Option Int) (maxStale : Option StaleBound)
    {couldStale : Int} (isExpired isFresh : Int) (hlow : -2 ^ 31 ≤ couldStale) (hhigh : couldStale < 2 ^ 31) :
    (between maxAge maxStale).allows newPage (readings couldStale isExpired isFresh) = true ↔
      (∀ max ∈ maxAge, isExpired ≤ max) ∧ ∀ stale ∈ maxStale, couldStale < stale.val := by
  have hcould : toInt32 couldStale = couldStale := toInt32_eq hlow hhigh
  rw [allows, Bool.and_eq_true, Option.all_eq_true, Option.all_eq_true]
  simp [newPage, readings, CachedPage.isExpired, CachedPage.couldStale, hcould]

theorem maxAge_inj {maxAge maxAge' : Option Int}
    (h : ∀ age : Int, (∀ max ∈ maxAge, age ≤ max) ↔ ∀ max ∈ maxAge', age ≤ max) : maxAge = maxAge' := by
  rcases maxAge with - | max <;> rcases maxAge' with - | max'
  · rfl
  · have hage := h (max' + 1)
    simp only [Option.mem_def, reduceCtorEq, false_implies, implies_true, Option.some.injEq, forall_eq',
      true_iff] at hage
    omega
  · have hage := h (max + 1)
    simp only [Option.mem_def, reduceCtorEq, false_implies, implies_true, Option.some.injEq, forall_eq',
      iff_true] at hage
    omega
  · have hage := h max
    have hage' := h max'
    simp only [Option.mem_def, Option.some.injEq, forall_eq'] at hage hage'
    rw [Option.some.injEq]
    omega

theorem maxStale_inj {maxStale maxStale' : Option StaleBound}
    (h : ∀ age : Int, -2 ^ 31 ≤ age → age < 2 ^ 31 →
      ((∀ stale ∈ maxStale, age < stale.val) ↔ ∀ stale ∈ maxStale', age < stale.val)) :
    maxStale = maxStale' := by
  rcases maxStale with - | ⟨val, hlow, hhigh⟩ <;> rcases maxStale' with - | ⟨val', hlow', hhigh'⟩
  · rfl
  · have hage := h val' (Int.le_of_lt hlow') hhigh'
    simp at hage
  · have hage := h val (Int.le_of_lt hlow) hhigh
    simp at hage
  · have hage := h val (Int.le_of_lt hlow) hhigh
    have hage' := h val' (Int.le_of_lt hlow') hhigh'
    simp only [Option.mem_def, Option.some.injEq, forall_eq', Int.lt_irrefl, false_iff, iff_false]
      at hage hage'
    obtain rfl : val = val' := by omega
    rfl

theorem getD_le (maxAge : Option Int) : ∀ max ∈ maxAge, maxAge.getD 0 ≤ max := by
  intro max hmax
  obtain rfl := Option.mem_def.mp hmax
  exact Int.le_refl max

/-- Some page meets the bounds, whatever `min-fresh` would say about it. -/
theorem exists_between (maxAge : Option Int) (maxStale : Option StaleBound) :
    ∃ isExpired, ∀ isFresh,
      (between maxAge maxStale).allows newPage (readings (-2 ^ 31) isExpired isFresh) = true := by
  refine ⟨maxAge.getD 0, fun isFresh => ?_⟩
  rw [allows_between _ _ _ _ (by omega) (by omega)]
  exact ⟨getD_le maxAge, fun stale _ => stale.low⟩

theorem never_ne_fresh (min : Int) :
    ∃ page clock, never.allows page clock ≠ (fresh min).allows page clock := by
  refine ⟨newPage, readings 0 0 (min + 1), ?_⟩
  rw [allows_fresh, allows, decide_eq_true (Int.lt_succ min)]
  exact Bool.false_ne_true

theorem never_ne_between (maxAge : Option Int) (maxStale : Option StaleBound) :
    ∃ page clock, never.allows page clock ≠ (between maxAge maxStale).allows page clock := by
  obtain ⟨isExpired, hallows⟩ := exists_between maxAge maxStale
  refine ⟨newPage, readings (-2 ^ 31) isExpired 0, ?_⟩
  rw [hallows]
  exact Bool.false_ne_true

theorem fresh_ne_between (min : Int) (maxAge : Option Int) (maxStale : Option StaleBound) :
    ∃ page clock, (fresh min).allows page clock ≠ (between maxAge maxStale).allows page clock := by
  obtain ⟨isExpired, hallows⟩ := exists_between maxAge maxStale
  refine ⟨newPage, readings (-2 ^ 31) isExpired min, ?_⟩
  rw [hallows, allows_fresh]
  simp

/-- **Limits that allow the same pages are equal.** -/
theorem allows_injective : Function.Injective allows := by
  intro limit limit' h
  have hsame : ∀ page clock, limit.allows page clock = limit'.allows page clock :=
    fun page clock => congrFun (congrFun h page) clock
  have hapart : ¬ ∃ page clock, limit.allows page clock ≠ limit'.allows page clock := by
    rintro ⟨page, clock, hne⟩
    exact hne (hsame page clock)
  have hapart' : ¬ ∃ page clock, limit'.allows page clock ≠ limit.allows page clock := by
    rintro ⟨page, clock, hne⟩
    exact hne (hsame page clock).symm
  cases limit with
  | never =>
    cases limit' with
    | never => rfl
    | fresh min' => exact absurd (never_ne_fresh min') hapart
    | between maxAge' maxStale' => exact absurd (never_ne_between maxAge' maxStale') hapart
  | fresh min =>
    cases limit' with
    | never => exact absurd (never_ne_fresh min) hapart'
    | fresh min' =>
      have hmin := hsame newPage (readings 0 0 min)
      have hmin' := hsame newPage (readings 0 0 min')
      rw [allows_fresh, allows_fresh, decide_eq_decide] at hmin hmin'
      rw [fresh.injEq]
      omega
    | between maxAge' maxStale' => exact absurd (fresh_ne_between min maxAge' maxStale') hapart
  | between maxAge maxStale =>
    cases limit' with
    | never => exact absurd (never_ne_between maxAge maxStale) hapart'
    | fresh min' => exact absurd (fresh_ne_between min' maxAge maxStale) hapart'
    | between maxAge' maxStale' =>
      have hboth : ∀ couldStale isExpired, -2 ^ 31 ≤ couldStale → couldStale < 2 ^ 31 →
          (((∀ max ∈ maxAge, isExpired ≤ max) ∧ ∀ stale ∈ maxStale, couldStale < stale.val) ↔
            (∀ max ∈ maxAge', isExpired ≤ max) ∧ ∀ stale ∈ maxStale', couldStale < stale.val) := by
        intro couldStale isExpired hlow hhigh
        rw [← allows_between maxAge maxStale isExpired 0 hlow hhigh,
          ← allows_between maxAge' maxStale' isExpired 0 hlow hhigh, hsame]
      have hmax : maxAge = maxAge' := by
        refine maxAge_inj fun age => ?_
        have hage := hboth (-2 ^ 31) age (by omega) (by omega)
        rwa [and_iff_left fun stale _ => stale.low, and_iff_left fun stale _ => stale.low] at hage
      subst hmax
      rw [between.injEq]
      refine ⟨rfl, maxStale_inj fun age hlow hhigh => ?_⟩
      have hage := hboth age (maxAge.getD 0) hlow hhigh
      rwa [and_iff_right (getD_le maxAge), and_iff_right (getD_le maxAge)] at hage

end AgeLimit

/-! ## The decision -/

/-- What `handleRequest` and `cache_control` decide about the cache. -/
structure CacheUse : Type where
  /-- `must_validate` -/
  mustValidate : Bool
  /-- `can_use` -/
  canUse : Bool
  /-- `cache_only` -/
  cacheOnly : Bool
  /-- `should_cache` -/
  shouldCache : Bool
  deriving DecidableEq

/-- The decision for the directives of a request. -/
def cacheUse (cache : Cache) (hdrs : StringMap Int) (uri : Bytes) (clock : Clock) : CacheUse :=
  let mustValidate := decide (directive hdrs (str "no-cache") ≠ 0)
  let d := cacheControl cache hdrs uri mustValidate clock
  ⟨mustValidate, d.canUse, d.cacheOnly, d.shouldCache⟩

/-- What a request asks of the cache. -/
inductive CacheRule : Type where
  /-- a new response is fetched, and stored or not -/
  | validate (store : Bool)
  /-- the cached page is not used, and removed -/
  | noStore (onlyIfCached : Bool)
  /-- the cached page is used if it has the right age -/
  | within (onlyIfCached : Bool) (limit : AgeLimit)
  deriving DecidableEq

namespace CacheRule

/-- The rule that some values of the directives amount to. -/
def of (asked : Bytes → Int) : CacheRule :=
  if asked (str "no-cache") ≠ 0 then validate (decide (asked (str "no-store") = 0))
  else if asked (str "no-store") ≠ 0 then noStore (decide (asked (str "only-if-cached") ≠ 0))
  else within (decide (asked (str "only-if-cached") ≠ 0)) (.of asked)

/-- The decision, by the page that is present. -/
def use : CacheRule → Option CachedPage → Clock → CacheUse
  | validate store, _, _ => ⟨true, false, false, store⟩
  | noStore _, some _, _ => ⟨false, false, false, true⟩
  | noStore onlyIfCached, none, _ => ⟨false, false, onlyIfCached, false⟩
  | within _ limit, some page, clock => ⟨false, limit.allows page clock, false, true⟩
  | within onlyIfCached _, none, _ => ⟨false, false, onlyIfCached, true⟩

/-- **The decision depends on the rule only.** -/
theorem cacheUse_eq {hdrs : StringMap Int} (cache : Cache) (uri : Bytes) (clock : Clock)
    (hlow : -2 ^ 31 ≤ directive hdrs (str "max-stale"))
    (hhigh : directive hdrs (str "max-stale") < 2 ^ 31) :
    cacheUse cache hdrs uri clock = (CacheRule.of (directive hdrs)).use cache[uri]? clock := by
  rw [cacheUse, CacheRule.of]
  by_cases hno : directive hdrs (str "no-cache") = 0
  · rw [decide_eq_false (not_not.mpr hno), if_neg (not_not.mpr hno)]
    rcases hpage : cache[uri]? with - | page
    · rw [ProxyHandler.cacheControl_none hdrs clock (Or.inr hpage)]
      by_cases hstore : directive hdrs (str "no-store") = 0
      · rw [if_neg (not_not.mpr hstore), use, decide_eq_true hstore, Bool.not_false, Bool.true_and]
      · rw [if_pos hstore, use, decide_eq_false hstore, Bool.not_false, Bool.true_and]
    · rw [ProxyHandler.cacheControl_some hdrs clock rfl hpage]
      by_cases hstore : directive hdrs (str "no-store") = 0
      · have hallows : (checkAge hdrs page clock).2 = (AgeLimit.of (directive hdrs)).allows page clock := by
          rw [Bool.eq_iff_iff, AgeLimit.allows_of page clock hlow hhigh, ← ProxyHandler.checkAge_iff,
            Bool.not_eq_false]
        rw [if_neg (not_not.mpr hstore), if_neg (not_not.mpr hstore), use, hallows]
      · rw [if_pos hstore, if_pos hstore, use]
  · rw [decide_eq_true hno, if_pos hno, ProxyHandler.cacheControl_none hdrs clock (Or.inl rfl), use,
      Bool.not_true, Bool.false_and]

/-- **Different rules are told apart** by some page at some time. -/
theorem use_injective : Function.Injective use := by
  intro rule rule' h
  have hnone := congrFun (congrFun h none) (AgeLimit.readings 0 0 0)
  have hsome : ∀ page clock, rule.use (some page) clock = rule'.use (some page) clock :=
    fun page clock => congrFun (congrFun h (some page)) clock
  cases rule with
  | validate store =>
    cases rule' with
    | validate store' => rw [(CacheUse.mk.inj hnone).2.2.2]
    | noStore only' => cases hnone
    | within only' limit' => cases hnone
  | noStore only =>
    cases rule' with
    | validate store' => cases hnone
    | noStore only' => rw [(CacheUse.mk.inj hnone).2.2.1]
    | within only' limit' => cases hnone
  | within only limit =>
    cases rule' with
    | validate store' => cases hnone
    | noStore only' => cases hnone
    | within only' limit' =>
      have hlimit : limit = limit' := by
        apply AgeLimit.allows_injective
        funext page clock
        exact (CacheUse.mk.inj (hsome page clock)).2.1
      rw [(CacheUse.mk.inj hnone).2.2.1, hlimit]

/-- The same for rules that may be missing. -/
theorem eq_of_use_eq {rule rule' : Option CacheRule} (h : ∀ (page : Option CachedPage) (clock : Clock),
    (rule.map fun r => r.use page clock) = rule'.map fun r => r.use page clock) : rule = rule' := by
  have hnone := h none (AgeLimit.readings 0 0 0)
  rcases rule with - | rule <;> rcases rule' with - | rule'
  · rfl
  · cases hnone
  · cases hnone
  · rw [Option.some.injEq]
    apply use_injective
    funext page clock
    exact Option.some.inj (h page clock)

end CacheRule

/-! ## The rule of a header -/

/-- The value of a name's last assignment, zero when there is none. -/
def lastAsked (vals : List (Bytes × Int)) (name : Bytes) : Int :=
  ((vals.reverse.find? fun p => p.1 == name).map Prod.snd).getD 0

/-- The rule of a Cache-Control value, unless it cannot be read. -/
def cacheRule (dirs : Bytes) : Option CacheRule :=
  ((pieces dirs).mapM parseDirective).map fun vals => CacheRule.of (lastAsked vals)

/-- The decision for a request's headers, unless they cannot be read. -/
def headersUse (headers : StringMap Bytes) (cache : Cache) (uri : Bytes) (clock : Clock) :
    Option CacheUse :=
  (parseCacheHdrs headers).map fun hdrs => cacheUse cache hdrs uri clock

theorem directive_setAll (vals : List (Bytes × Int)) : directive (setAll ∅ vals) = lastAsked vals := by
  funext name
  rw [directive, TreeMap.getD_eq_getD_getElem?, getElem?_setAll, lastAsked]

/-- A directive's value is an `int`. -/
theorem lastAsked_range {pieces : List Bytes} {vals : List (Bytes × Int)}
    (h : pieces.mapM parseDirective = some vals) (name : Bytes) :
    -2 ^ 31 ≤ lastAsked vals name ∧ lastAsked vals name < 2 ^ 31 := by
  rw [lastAsked]
  cases hfind : vals.reverse.find? fun p => p.1 == name with
  | none =>
    rw [Option.map_none, Option.getD_none]
    omega
  | some p =>
    have hmem := List.mem_reverse.mp (List.mem_of_find?_eq_some hfind)
    obtain ⟨token, -, htoken⟩ := exists_of_mem_mapM h hmem
    rw [Option.map_some, Option.getD_some]
    exact parseDirective_range htoken

theorem headersUse_eq (headers : StringMap Bytes) (cache : Cache) (uri : Bytes) (clock : Clock) :
    headersUse headers cache uri clock =
      (cacheRule (headers.getD (str "Cache-Control") [])).map fun rule => rule.use cache[uri]? clock := by
  rw [headersUse, parseCacheHdrs_eq, cacheRule]
  rcases hvals : (pieces (headers.getD (str "Cache-Control") [])).mapM parseDirective with - | vals
  · rfl
  · obtain ⟨hlow, hhigh⟩ := lastAsked_range hvals (str "max-stale")
    rw [← directive_setAll] at hlow hhigh
    rw [Option.map_some, Option.map_some, Option.map_some, Option.map_some,
      CacheRule.cacheUse_eq cache uri clock hlow hhigh, directive_setAll]

/-- **Headers with the same rule** are the headers that are treated alike, whatever is cached
and at every time. -/
theorem headersUse_iff (headers headers' : StringMap Bytes) (uri : Bytes) :
    (∀ cache clock, headersUse headers cache uri clock = headersUse headers' cache uri clock) ↔
      cacheRule (headers.getD (str "Cache-Control") []) =
        cacheRule (headers'.getD (str "Cache-Control") []) := by
  simp only [headersUse_eq]
  refine ⟨fun h => ?_, fun h cache clock => by rw [h]⟩
  have hpage : ∀ (page : Option CachedPage) (clock : Clock),
      ((cacheRule (headers.getD (str "Cache-Control") [])).map fun rule => rule.use page clock) =
        (cacheRule (headers'.getD (str "Cache-Control") [])).map fun rule => rule.use page clock := by
    intro page clock
    cases page with
    | none =>
      have hempty := h ∅ clock
      rwa [TreeMap.getElem?_emptyc] at hempty
    | some page =>
      have hone := h ((∅ : Cache).insert uri page) clock
      rwa [TreeMap.getElem?_insert_self] at hone
  exact CacheRule.eq_of_use_eq hpage

end LowKeyWebServer
