import LowKeyWebServer.ProxyHandler

/-!
# Links through the proxy

`parse_html_body` puts the location before the absolute links of a page, `handleRequest` takes
it off again to find the destination. `resolves_iff` is the condition under which the two are
inverse.
-/

namespace LowKeyWebServer

namespace ProxyHandler

variable {h : ProxyHandler}

/-! ## Slashes -/

/-- An address without one trailing slash. -/
def dropSlash (address : Bytes) : Bytes :=
  if address.getLast? = some ('/' : Byte) then address.dropLast else address

theorem dropSlash_append {address : Bytes} (hlast : address.getLast? = some ('/' : Byte)) :
    dropSlash address ++ str "/" = address := by
  rw [dropSlash, if_pos hlast]
  exact List.dropLast_append_getLast? _ hlast

theorem dropSlash_of_ne {address : Bytes} (hlast : address.getLast? ≠ some ('/' : Byte)) :
    dropSlash address = address := if_neg hlast

/-- A target with a single slash at its front. -/
def SingleSlash (t : Bytes) : Prop := ∃ rest, t = ('/' : Byte) :: rest ∧ rest.head? ≠ some ('/' : Byte)

/-- The two parts meet in exactly one slash. -/
def JoinedAt (dest address t : Bytes) : Prop :=
  dest = address ++ t ∧ address.getLast? ≠ some ('/' : Byte) ∧ SingleSlash t

/-! ## Rewriting -/

/-- A link target in a page. -/
def quoted (t : Bytes) : Bytes := str "\"" ++ t ++ str "\""

/-- `parse_html_body` puts the location before the target. -/
def Rewrites (h : ProxyHandler) (t : Bytes) : Prop :=
  h.parseHtmlBody (quoted t) = some (quoted (dropSlash h.serveAddr ++ t))

/-- Behind the first slash of a target nothing is inserted, up to its closing quotation mark. -/
theorem editHtml_target (targetAddr : Bytes) {t : Bytes} (ht : ('"' : Byte) ∉ t) :
    editHtml targetAddr [] (t ++ str "\"") = t ++ str "\"" := by
  induction t with
  | nil => rfl
  | cons c t ih =>
    have hc : c ≠ '"' := fun hc => ht (hc ▸ List.mem_cons_self)
    have hrest := ih fun hmem => ht (List.mem_cons_of_mem _ hmem)
    rw [List.cons_append, editHtml, if_neg hc]
    split
    · -- a slash with no quotation mark before it
      have hslash : [] ++ [c] ≠ str "\"/" := fun heq => by cases heq
      rw [if_neg hslash, hrest]
    · rw [hrest]

/-- Every target of a quotation is rewritten. -/
theorem rewrites_of_single {t : Bytes} (haddr : h.serveAddr ≠ []) (ht : SingleSlash t)
    (hquote : ('"' : Byte) ∉ t) : Rewrites h t := by
  obtain ⟨rest, rfl, -⟩ := ht
  have hrest : ('"' : Byte) ∉ rest := fun hmem => hquote (List.mem_cons_of_mem _ hmem)
  rw [Rewrites, parseHtmlBody]
  rcases hlast : h.serveAddr.getLast? with - | c
  · exact absurd (List.getLast?_eq_none_iff.mp hlast) haddr
  · have hdrop : (if c = '/' then h.serveAddr.dropLast else h.serveAddr) = dropSlash h.serveAddr := by
      simp [dropSlash, hlast]
    dsimp only
    rw [hdrop]
    change some (editHtml _ [] ('"' :: '/' :: (rest ++ str "\""))) = _
    rw [editHtml, if_pos rfl, editHtml, if_neg (by decide), if_pos rfl, if_pos (by rfl),
      editHtml_target _ hrest]
    simp [quoted, str]

/-! ## Resolving -/

/-- The destination of a link below the location. -/
theorem destination_append {t : Bytes} (hproxy : h.proxyAddr ≠ [])
    (hhttp : ¬ str "http" <+: h.serveAddr ++ t) :
    h.destination (h.serveAddr ++ t) =
      some (if t.head? ≠ some ('/' : Byte) ∧ h.proxyAddr.getLast? ≠ some ('/' : Byte) then
        h.proxyAddr ++ (str "/" ++ t) else h.proxyAddr ++ t) := by
  have hpre : (str "http").isPrefixOf (h.serveAddr ++ t) = false :=
    Bool.eq_false_iff.mpr fun htrue => hhttp (List.isPrefixOf_iff_prefix.mp htrue)
  rw [destination, hpre, if_neg Bool.false_ne_true, find_front]
  dsimp only
  rw [List.take_zero, Nat.zero_add, List.drop_left, List.nil_append]
  rcases hlast : h.proxyAddr.getLast? with - | c
  · exact absurd (List.getLast?_eq_none_iff.mp hlast) hproxy
  · by_cases hhead : t.head? = some ('/' : Byte)
    · rw [if_neg (not_not.mpr hhead), if_neg fun hand => hand.1 hhead]
    · rw [if_pos hhead]
      by_cases hc : c = '/'
      · simp [hc]
      · simp [hc, hhead]

/-- **When rewriting and resolving are inverse**: unless the proxy address ends with a slash and
the location does not, a link that was rewritten leads to its target below the proxy address. -/
theorem resolves_iff {t : Bytes} (hproxy : h.proxyAddr ≠ [])
    (hone : (dropSlash h.proxyAddr).getLast? ≠ some ('/' : Byte)) (ht : SingleSlash t)
    (hrewrites : Rewrites h t) (hhttp : ¬ str "http" <+: dropSlash h.serveAddr ++ t) :
    (∃ dest, h.destination (dropSlash h.serveAddr ++ t) = some dest ∧
      JoinedAt dest (dropSlash h.proxyAddr) t) ↔
    ¬ (h.proxyAddr.getLast? = some ('/' : Byte) ∧ h.serveAddr.getLast? ≠ some ('/' : Byte)) := by
  have hjoined : (∃ dest, h.destination (dropSlash h.serveAddr ++ t) = some dest ∧
      JoinedAt dest (dropSlash h.proxyAddr) t) ↔
      h.destination (dropSlash h.serveAddr ++ t) = some (dropSlash h.proxyAddr ++ t) := by
    refine ⟨?_, fun hdest => ⟨_, hdest, rfl, hone, ht⟩⟩
    rintro ⟨dest, hdest, rfl, -, -⟩
    exact hdest
  rw [hjoined]
  obtain ⟨rest, rfl, hrest⟩ := ht
  by_cases hslash : h.serveAddr.getLast? = some ('/' : Byte)
  · -- the slash of the target is the one of the location
    have huri : dropSlash h.serveAddr ++ ('/' : Byte) :: rest = h.serveAddr ++ rest := by
      calc dropSlash h.serveAddr ++ ('/' : Byte) :: rest
          = dropSlash h.serveAddr ++ str "/" ++ rest := by rw [List.append_assoc]; rfl
        _ = h.serveAddr ++ rest := by rw [dropSlash_append hslash]
    rw [huri] at hhttp ⊢
    rw [destination_append hproxy hhttp]
    refine iff_of_true (congrArg some ?_) fun hand => hand.2 hslash
    by_cases hp : h.proxyAddr.getLast? = some ('/' : Byte)
    · rw [if_neg fun hand => hand.2 hp]
      conv_lhs => rw [← dropSlash_append hp]
      rw [List.append_assoc]
      rfl
    · rw [if_pos ⟨hrest, hp⟩, dropSlash_of_ne hp]
      rfl
  · rw [dropSlash_of_ne hslash] at hhttp ⊢
    rw [destination_append hproxy hhttp, if_neg fun hand => hand.1 rfl, Option.some.injEq,
      List.append_left_inj]
    by_cases hp : h.proxyAddr.getLast? = some ('/' : Byte)
    · -- both slashes stay
      refine iff_of_false (fun heq => ?_) fun hnot => hnot ⟨hp, hslash⟩
      rw [← heq] at hone
      exact hone hp
    · exact iff_of_true (dropSlash_of_ne hp).symm fun hand => hp hand.1

/-- The theorem at a link of the tests, below an address without a slash. -/
theorem resolves_about :
    ∃ dest, destination ⟨str "/ucla", str "www.ucla.edu"⟩ (str "/ucla/about") = some dest ∧
      JoinedAt dest (str "www.ucla.edu") (str "/about") := by
  have hsingle : SingleSlash (str "/about") := ⟨str "about", rfl, by decide⟩
  have hrewrites : Rewrites ⟨str "/ucla", str "www.ucla.edu"⟩ (str "/about") :=
    rewrites_of_single (by decide) hsingle (by decide)
  exact (resolves_iff (h := ⟨str "/ucla", str "www.ucla.edu"⟩) (by decide) (by decide) hsingle
    hrewrites (by decide)).mpr (by decide)

/-- Below an address with a slash the same link has two. -/
theorem not_resolves_slash :
    ¬ ∀ (h : ProxyHandler) (t : Bytes), h.serveAddr ≠ [] → h.proxyAddr ≠ [] →
      (dropSlash h.proxyAddr).getLast? ≠ some ('/' : Byte) → SingleSlash t → Rewrites h t →
      ¬ str "http" <+: dropSlash h.serveAddr ++ t →
      ∃ dest, h.destination (dropSlash h.serveAddr ++ t) = some dest ∧
        JoinedAt dest (dropSlash h.proxyAddr) t := by
  intro hall
  have hsingle : SingleSlash (str "/about") := ⟨str "about", rfl, by decide⟩
  obtain ⟨dest, hdest, hjoined, -⟩ := hall ⟨str "/ucla", str "www.ucla.edu/"⟩ (str "/about")
    (by decide) (by decide) (by decide) hsingle
    (rewrites_of_single (by decide) hsingle (by decide)) (by decide)
  have htwo : destination ⟨str "/ucla", str "www.ucla.edu/"⟩ (str "/ucla/about") =
      some (str "www.ucla.edu//about") := by decide
  rw [hjoined] at hdest
  exact absurd (hdest.symm.trans htwo) (by decide)

end ProxyHandler

end LowKeyWebServer
