/-
  `resolve_edges` on the part of a symbol table that is found (`resolver.rs`).

  * `Names`: the part has the symbols of some files, and those that their texts name;
    there the calls and the bases do not change (`proposes_part_named`);
  * `Covered`: what the other rules need of the part to lose no edge, and `KeepsCap` what
    they need to add none (`edgesFrom_subset_iff`, `edgesFrom_supset_iff`).
-/
import Cognis.Indexer.Rules

namespace Cognis

open Table

/-- The edges of a table that leave a symbol of some files. -/
def edgesFrom (unicode : UnicodeTables) (owned : List String) (symbols : List Symbol) :
    List ResolvedEdge :=
  (resolveEdges unicode symbols).filter fun edge =>
    (symbols.find? (·.id = edge.srcId)).any (·.filePath ∈ owned)

/-- The edge leaves a symbol of some files. -/
def Leaves (owned : List String) (symbols : List Symbol) (edge : ResolvedEdge) : Prop :=
  ∃ s ∈ symbols, s.id = edge.srcId ∧ s.filePath ∈ owned

section
variable {unicode : UnicodeTables} {owned : List String} {symbols symbols' : List Symbol}
  {edge : ResolvedEdge}

theorem any_find?_iff (hkeyed : Keyed Symbol.id symbols) :
    (symbols.find? (·.id = edge.srcId)).any (·.filePath ∈ owned) = true ↔
      Leaves owned symbols edge := by
  rw [Option.any_eq_true]
  constructor
  · rintro ⟨s, hs, hpath⟩
    exact ⟨s, List.mem_of_find?_eq_some hs, by simpa using List.find?_some hs, by simpa using hpath⟩
  · rintro ⟨s, hs, hid, hpath⟩
    have hfound : (symbols.find? (·.id = edge.srcId)).isSome = true :=
      List.find?_isSome.2 ⟨s, hs, by simpa using hid⟩
    obtain ⟨t, ht⟩ := Option.isSome_iff_exists.1 hfound
    have htid : t.id = edge.srcId := by simpa using List.find?_some ht
    rw [hkeyed.eq (List.mem_of_find?_eq_some ht) hs (htid.trans hid.symm)] at ht
    exact ⟨s, ht, by simpa using hpath⟩

theorem mem_edgesFrom (hkeyed : Keyed Symbol.id symbols) : edge ∈ edgesFrom unicode owned symbols ↔
    Best ResolvedEdge.key ResolvedEdge.confidence (Proposes unicode symbols) edge ∧
      Leaves owned symbols edge := by
  rw [edgesFrom, List.mem_filter, any_find?_iff hkeyed, mem_resolveEdges_iff]

/-- Two lists of edges that leave the files are equal if they have the same edges. -/
theorem edgesFrom_eq_iff : edgesFrom unicode owned symbols = edgesFrom unicode owned symbols' ↔
    ∀ edge, edge ∈ edgesFrom unicode owned symbols ↔ edge ∈ edgesFrom unicode owned symbols' := by
  refine ⟨fun h edge => by rw [h], fun h => ?_⟩
  have hkeyed : ∀ table, Keyed ResolvedEdge.key (edgesFrom unicode owned table) :=
    fun table => keyed_resolveEdges.filter _
  have hsorted : ∀ table, (edgesFrom unicode owned table).Pairwise
      fun edge edge' => edge.key ≤ edge'.key := fun table => sorted_sortOn.filter _
  refine ((hkeyed symbols).perm (hkeyed symbols') h).eq_of_pairwise
    (fun edge edge' hedge hedge' hle hle' => ?_) (hsorted symbols) (hsorted symbols')
  exact (hkeyed symbols).eq hedge ((h edge').2 hedge') (le_antisymm hle hle')

theorem edgesFrom_perm (hkeyed : Keyed Symbol.id symbols) (h : symbols.Perm symbols') :
    edgesFrom unicode owned symbols = edgesFrom unicode owned symbols' := by
  have hkeyed' : Keyed Symbol.id symbols' := (h.map Symbol.id).nodup_iff.1 hkeyed
  refine edgesFrom_eq_iff.2 fun edge => ?_
  rw [mem_edgesFrom hkeyed, mem_edgesFrom hkeyed']
  simp only [Best, Proposes.perm h, Leaves, h.mem_iff]

/-- The edges that leave some of the files. -/
theorem mem_edgesFrom_of_subset {part : List String} (hkeyed : Keyed Symbol.id symbols)
    (hpart : ∀ path ∈ part, path ∈ owned) : edge ∈ edgesFrom unicode part symbols ↔
      edge ∈ edgesFrom unicode owned symbols ∧ Leaves part symbols edge := by
  rw [mem_edgesFrom hkeyed, mem_edgesFrom hkeyed]
  constructor
  · rintro ⟨hbest, s, hs, hid, hpath⟩
    exact ⟨⟨hbest, s, hs, hid, hpart _ hpath⟩, s, hs, hid, hpath⟩
  · exact fun h => ⟨h.1.1, h.2⟩

theorem mem_resolveEdges_of_perm (h : symbols.Perm symbols') :
    edge ∈ resolveEdges unicode symbols ↔ edge ∈ resolveEdges unicode symbols' := by
  rw [mem_resolveEdges_iff, mem_resolveEdges_iff]
  simp only [Best, Proposes.perm h]

/-! ## Kinds -/

/-- The kinds of the edges that a text gives by the name of their destination: calls and
    bases. -/
def EdgeKind.isNamed : EdgeKind → Bool
  | .calls | .inherits | .implements => true
  | _ => false

theorem CallEdge.isNamed (h : CallEdge unicode symbols edge) : edge.kind.isNamed = true := by
  obtain ⟨caller, -, callee, -, -, -, confidence, -, rfl⟩ := h
  rfl

theorem BaseEdge.isNamed (h : BaseEdge unicode symbols edge) : edge.kind.isNamed = true := by
  obtain ⟨sym, -, -, base, -, dst, -, rfl⟩ := h
  simp only [ResolvedEdge.new]
  unfold edgeKindFor
  split <;> rfl

theorem queryKind_cases {tokens : List (List Char)} {kind : EdgeKind}
    (h : queryKind tokens = some kind) : kind = .writes ∨ kind = .reads := by
  unfold queryKind at h
  split_ifs at h
  · exact .inl (Option.some.inj h).symm
  · exact .inr (Option.some.inj h).symm

/-- The confidence of an edge that no name gives. -/
def joinConfidence (kind : EdgeKind) (dst : Symbol) : ℚ :=
  if kind = .routesTo then 1 else if isConfigKey dst then 7 / 10 else 65 / 100

/-- A table or a column is no configuration key. -/
theorem not_isConfigKey_of_isSqlName {sym : Symbol} (h : isSqlName sym = true) :
    isConfigKey sym = false := by
  simp only [isSqlName, Bool.and_eq_true, decide_eq_true_eq] at h
  simp [isConfigKey, h.1]

/-- An edge that no name gives: its confidence is that of its kind. -/
theorem Proposes.confidence_eq (hkeyed : Keyed Symbol.id symbols) (h : Proposes unicode symbols edge)
    (hkind : edge.kind.isNamed = false) {dst : Symbol} (hdst : dst ∈ symbols)
    (hid : dst.id = edge.dstId) : edge.confidence = joinConfidence edge.kind dst := by
  rcases h with h | h | h | h | h
  · rw [h.isNamed] at hkind
    cases hkind
  · rw [h.isNamed] at hkind
    cases hkind
  · obtain ⟨route, -, -, handler, -, -, -, -, rfl⟩ := h
    rfl
  · obtain ⟨keySym, hkey, hconfig, -, reader, -, rfl⟩ := h
    rw [← hkeyed.eq hdst (mem_of_mem_integrationCandidates hkey) hid] at hconfig
    simp [ResolvedEdge.new, joinConfidence, hconfig]
  · obtain ⟨site, -, -, kind, hqueried, sqlSym, hsql, hname, -, -, -, rfl⟩ := h
    have hconfig := not_isConfigKey_of_isSqlName hname
    rw [← hkeyed.eq hdst (mem_of_mem_integrationCandidates hsql) hid] at hconfig
    rcases queryKind_cases hqueried with rfl | rfl
    · simp [ResolvedEdge.new, joinConfidence, hconfig]
    · simp [ResolvedEdge.new, joinConfidence, hconfig]

/-- An edge that no name gives is the best of its key. -/
theorem Proposes.best (hkeyed : Keyed Symbol.id symbols) (h : Proposes unicode symbols edge)
    (hkind : edge.kind.isNamed = false) :
    Best ResolvedEdge.key ResolvedEdge.confidence (Proposes unicode symbols) edge := by
  refine ⟨h, fun other hother hkey => ?_⟩
  obtain ⟨-, hdst, hkinds⟩ := ResolvedEdge.key_eq_iff.1 hkey
  obtain ⟨dst, hmem, hid⟩ := h.joins.dst
  rw [h.confidence_eq hkeyed hkind hmem hid, hother.confidence_eq hkeyed (by rw [hkinds, hkind]) hmem
    (hid.trans hdst.symm), hkinds]

/-- What is read from a configuration key is read by the rule of the keys. -/
theorem Proposes.configReadEdge (hkeyed : Keyed Symbol.id symbols)
    (h : Proposes unicode symbols edge) (hkind : edge.kind = .reads) {dst : Symbol}
    (hdst : dst ∈ symbols) (hid : dst.id = edge.dstId) (hconfig : isConfigKey dst = true) :
    ConfigReadEdge symbols edge := by
  rcases h with h | h | h | h | h
  · have hnamed := h.isNamed
    rw [hkind] at hnamed
    cases hnamed
  · have hnamed := h.isNamed
    rw [hkind] at hnamed
    cases hnamed
  · obtain ⟨route, -, -, handler, -, -, -, -, rfl⟩ := h
    cases hkind
  · exact h
  · obtain ⟨site, -, -, kind, -, sqlSym, hsql, hname, -, -, -, rfl⟩ := h
    rw [hkeyed.eq hdst (mem_of_mem_integrationCandidates hsql) hid,
      not_isConfigKey_of_isSqlName hname] at hconfig
    cases hconfig

/-! ## The part that is found -/

/-- The symbols of some files are found, and all that their texts name. -/
structure Names (unicode : UnicodeTables) (owned : List String) (symbols : List Symbol)
    (found : Symbol → Bool) : Prop where
  sources : ∀ s ∈ symbols, s.filePath ∈ owned → found s = true
  calls : ∀ s ∈ symbols, s.filePath ∈ owned → ∀ callee ∈ symbols,
    callee.name.toList ∈ calledNames unicode s → found callee = true
  bases : ∀ s ∈ symbols, s.filePath ∈ owned → (isOopLanguage s.language && isTypeKind s.kind) = true →
    ∀ base ∈ OopResolver.bases unicode (Text.header ((s.bodyExcerpt <|> s.signature).getD "").toList)
      s.language, ∀ dst ∈ symbols, dst.name.toList = base.1 → found dst = true

theorem Names.mono {found : Symbol → Bool} {part : List String}
    (h : Names unicode owned symbols found) (hpart : ∀ path ∈ part, path ∈ owned) :
    Names unicode part symbols found where
  sources s hs hpath := h.sources s hs (hpart _ hpath)
  calls s hs hpath := h.calls s hs (hpart _ hpath)
  bases s hs hpath := h.bases s hs (hpart _ hpath)

/-- What the rules of routes, configuration keys and SQL names need to be found. -/
structure Covered (unicode : UnicodeTables) (owned : List String) (symbols : List Symbol)
    (found : Symbol → Bool) : Prop where
  /-- The handlers of a route of the files are found. -/
  handlers : ∀ route ∈ integrationCandidates symbols, route.filePath ∈ owned →
    (route.kind = .route && !Text.isBlank route.name) = true →
    ∀ handler ∈ integrationCandidates symbols, isArtifactLanguage handler.language = false →
      route.name.toList ∈ declaredRouteLiterals handler → handler.id ≠ route.id → found handler = true
  /-- The tables and columns that a query site of the files names are found. -/
  sqlNames : ∀ site ∈ integrationCandidates symbols, site.filePath ∈ owned →
    isArtifactLanguage site.language = false →
    (queryKind (Text.idents false site.queryText)).isSome = true →
    ∀ sqlSym ∈ integrationCandidates symbols, isSqlName sqlSym = true →
      Text.normalizeIdent unicode sqlSym.name ≠ "" →
      Text.normalizeIdent unicode sqlSym.name ∈
        ((Text.idents false site.queryText).map String.ofList ++ [site.name]).map
          (Text.normalizeIdent unicode) →
      sqlSym.id ≠ site.id → found sqlSym = true
  /-- A key that the files read is found, if it is read at few enough sites. -/
  keys : ∀ keySym ∈ integrationCandidates symbols, isConfigKey keySym = true →
    (∃ reader ∈ keyReaders symbols keySym, reader.filePath ∈ owned) →
    (keyReaders symbols keySym).length ≤ crossFanoutCap → found keySym = true

/-- A key that the files read at too many sites has too many of its readers found, if it is
    found itself. -/
def KeepsCap (owned : List String) (symbols : List Symbol) (found : Symbol → Bool) : Prop :=
  ∀ keySym ∈ integrationCandidates symbols, isConfigKey keySym = true →
    (∃ reader ∈ keyReaders symbols keySym, reader.filePath ∈ owned) → found keySym = true →
    ((keyReaders symbols keySym).filter found).length ≤ crossFanoutCap →
    (keyReaders symbols keySym).length ≤ crossFanoutCap

variable {found : Symbol → Bool}

theorem mem_integrationCandidates_filter {s : Symbol} :
    s ∈ integrationCandidates (symbols.filter found) ↔
      s ∈ integrationCandidates symbols ∧ found s = true := by
  simp only [integrationCandidates, List.mem_filter]
  tauto

theorem keyReaders_filter (keySym : Symbol) :
    keyReaders (symbols.filter found) keySym = (keyReaders symbols keySym).filter found := by
  simp only [keyReaders, integrationCandidates, List.filter_filter]
  refine List.filter_congr fun s _ => ?_
  cases found s <;> simp

theorem mem_of_mem_keyReaders {keySym reader : Symbol} (h : reader ∈ keyReaders symbols keySym) :
    reader ∈ symbols :=
  mem_of_mem_integrationCandidates (List.mem_of_mem_filter (List.mem_of_mem_filter h))

/-- The source of a proposed edge. -/
theorem source_owned (hkeyed : Keyed Symbol.id symbols) {s : Symbol} (hs : s ∈ symbols)
    (hid : s.id = edge.srcId) (hleaves : Leaves owned symbols edge) : s.filePath ∈ owned := by
  obtain ⟨t, ht, htid, hpath⟩ := hleaves
  rwa [hkeyed.eq hs ht (hid.trans htid.symm)]

theorem leaves_part (h : Names unicode owned symbols found) :
    Leaves owned (symbols.filter found) edge ↔ Leaves owned symbols edge := by
  constructor
  · rintro ⟨s, hs, hid, hpath⟩
    exact ⟨s, List.mem_of_mem_filter hs, hid, hpath⟩
  · rintro ⟨s, hs, hid, hpath⟩
    exact ⟨s, List.mem_filter.2 ⟨hs, h.sources s hs hpath⟩, hid, hpath⟩

/-! ### Calls and bases -/

theorem crossCount_part {caller callee : Symbol}
    (hnames : ∀ c ∈ symbols, c.name = callee.name → found c = true) :
    crossCount (symbols.filter found) caller callee = crossCount symbols caller callee := by
  unfold crossCount
  rw [List.countP_filter]
  refine List.countP_congr fun c hc => ?_
  simp only [Bool.and_eq_true, decide_eq_true_eq, and_iff_left_iff_imp]
  exact fun hcond => hnames c hc hcond.1.1.1

/-- **The calls of the files** do not change. -/
theorem callEdge_part (hkeyed : Keyed Symbol.id symbols) (h : Names unicode owned symbols found)
    (hleaves : Leaves owned symbols edge) :
    CallEdge unicode (symbols.filter found) edge ↔ CallEdge unicode symbols edge := by
  have hconf : ∀ caller ∈ symbols, caller.filePath ∈ owned → ∀ callee : Symbol,
      callee.name.toList ∈ calledNames unicode caller →
      callConfidence (symbols.filter found) caller callee = callConfidence symbols caller callee := by
    intro caller hcaller hpath callee hname
    have hcount : crossCount (symbols.filter found) caller callee = crossCount symbols caller callee :=
      crossCount_part fun c hc he => h.calls caller hcaller hpath c hc (by rwa [he])
    unfold callConfidence
    rw [hcount]
  constructor
  · rintro ⟨caller, hcaller, callee, hcallee, hsource, hname, confidence, hc, rfl⟩
    have hmem := List.mem_of_mem_filter hcaller
    rw [hconf caller hmem (source_owned hkeyed hmem rfl hleaves) callee hname] at hc
    exact ⟨caller, hmem, callee, List.mem_of_mem_filter hcallee, hsource, hname, confidence, hc, rfl⟩
  · rintro ⟨caller, hcaller, callee, hcallee, hsource, hname, confidence, hc, rfl⟩
    have hpath := source_owned hkeyed hcaller rfl hleaves
    rw [← hconf caller hcaller hpath callee hname] at hc
    exact ⟨caller, List.mem_filter.2 ⟨hcaller, h.sources caller hcaller hpath⟩, callee,
      List.mem_filter.2 ⟨hcallee, h.calls caller hcaller hpath callee hcallee hname⟩, hsource, hname,
      confidence, hc, rfl⟩

/-- **The bases of the files** do not change. -/
theorem baseEdge_part (hkeyed : Keyed Symbol.id symbols) (h : Names unicode owned symbols found)
    (hleaves : Leaves owned symbols edge) :
    BaseEdge unicode (symbols.filter found) edge ↔ BaseEdge unicode symbols edge := by
  have hcandidates : ∀ sym ∈ symbols, sym.filePath ∈ owned →
      (isOopLanguage sym.language && isTypeKind sym.kind) = true →
      ∀ base ∈ OopResolver.bases unicode
          (Text.header ((sym.bodyExcerpt <|> sym.signature).getD "").toList) sym.language,
        typeCandidates (symbols.filter found) sym base.1 = typeCandidates symbols sym base.1 := by
    intro sym hsym hpath hkind base hbase
    unfold typeCandidates
    rw [List.filter_filter]
    refine List.filter_congr fun c hc => ?_
    rw [Bool.and_eq_left_iff_imp]
    intro hcond
    simp only [Bool.and_eq_true, decide_eq_true_eq] at hcond
    exact h.bases sym hsym hpath hkind base hbase c hc hcond.1.2
  constructor
  · rintro ⟨sym, hsym, hkind, base, hbase, dst, hdst, rfl⟩
    have hmem := List.mem_of_mem_filter hsym
    have hpath := source_owned hkeyed hmem rfl hleaves
    rw [hcandidates sym hmem hpath hkind base hbase] at hdst ⊢
    exact ⟨sym, hmem, hkind, base, hbase, dst, hdst, rfl⟩
  · rintro ⟨sym, hsym, hkind, base, hbase, dst, hdst, rfl⟩
    have hpath := source_owned hkeyed hsym rfl hleaves
    rw [← hcandidates sym hsym hpath hkind base hbase] at hdst ⊢
    exact ⟨sym, List.mem_filter.2 ⟨hsym, h.sources sym hsym hpath⟩, hkind, base, hbase, dst, hdst, rfl⟩

/-! ### Routes, configuration keys and SQL names -/

theorem RouteEdge.of_part (h : RouteEdge (symbols.filter found) edge) : RouteEdge symbols edge := by
  obtain ⟨route, hroute, hkind, handler, hhandler, hrest⟩ := h
  exact ⟨route, (mem_integrationCandidates_filter.1 hroute).1, hkind, handler,
    (mem_integrationCandidates_filter.1 hhandler).1, hrest⟩

theorem SqlEdge.of_part (h : SqlEdge unicode (symbols.filter found) edge) :
    SqlEdge unicode symbols edge := by
  obtain ⟨site, hsite, hlang, kind, hkind, sqlSym, hsql, hrest⟩ := h
  exact ⟨site, (mem_integrationCandidates_filter.1 hsite).1, hlang, kind, hkind, sqlSym,
    (mem_integrationCandidates_filter.1 hsql).1, hrest⟩

theorem configReadEdge_part : ConfigReadEdge (symbols.filter found) edge ↔
    ∃ keySym ∈ integrationCandidates symbols, found keySym = true ∧ isConfigKey keySym = true ∧
      ((keyReaders symbols keySym).filter found).length ≤ crossFanoutCap ∧
      ∃ reader ∈ keyReaders symbols keySym, found reader = true ∧
        edge = .new reader.id keySym.id .reads (7 / 10) := by
  simp only [ConfigReadEdge, mem_integrationCandidates_filter, keyReaders_filter, List.mem_filter,
    and_assoc]

/-! ## The edges of the part -/

theorem proposes_named_iff (hkind : edge.kind.isNamed = true) :
    Proposes unicode symbols edge ↔ CallEdge unicode symbols edge ∨ BaseEdge unicode symbols edge := by
  refine ⟨fun h => ?_, fun h => h.elim .inl (.inr ∘ .inl)⟩
  rcases h with h | h | h | h | h
  · exact .inl h
  · exact .inr h
  · obtain ⟨route, -, -, handler, -, -, -, -, rfl⟩ := h
    cases hkind
  · obtain ⟨keySym, -, -, -, reader, -, rfl⟩ := h
    cases hkind
  · obtain ⟨site, -, -, kind, hqueried, sqlSym, -, -, -, -, -, rfl⟩ := h
    rcases queryKind_cases hqueried with rfl | rfl
    · cases hkind
    · cases hkind

/-- **What is found by name** is proposed alike. -/
theorem proposes_part_named (hkeyed : Keyed Symbol.id symbols) (h : Names unicode owned symbols found)
    (hleaves : Leaves owned symbols edge) (hkind : edge.kind.isNamed = true) :
    Proposes unicode (symbols.filter found) edge ↔ Proposes unicode symbols edge := by
  rw [proposes_named_iff hkind, proposes_named_iff hkind, callEdge_part hkeyed h hleaves,
    baseEdge_part hkeyed h hleaves]

theorem best_part_named (hkeyed : Keyed Symbol.id symbols) (h : Names unicode owned symbols found)
    (hleaves : Leaves owned symbols edge) (hkind : edge.kind.isNamed = true) :
    Best ResolvedEdge.key ResolvedEdge.confidence (Proposes unicode (symbols.filter found)) edge ↔
      Best ResolvedEdge.key ResolvedEdge.confidence (Proposes unicode symbols) edge := by
  have halike : ∀ other : ResolvedEdge, other.key = edge.key →
      (Proposes unicode (symbols.filter found) other ↔ Proposes unicode symbols other) := by
    intro other hkey
    obtain ⟨hsrc, -, hkinds⟩ := ResolvedEdge.key_eq_iff.1 hkey
    refine proposes_part_named hkeyed h ?_ (by rw [hkinds, hkind])
    rwa [Leaves, hsrc]
  constructor
  · exact fun hbest => ⟨(halike edge rfl).1 hbest.1, fun other hother hkey =>
      hbest.2 other ((halike other hkey).2 hother) hkey⟩
  · exact fun hbest => ⟨(halike edge rfl).2 hbest.1, fun other hother hkey =>
      hbest.2 other ((halike other hkey).1 hother) hkey⟩

/-- Which edges a table has is a matter of what is proposed, for edges that no name gives. -/
theorem mem_edgesFrom_of_not_named (hkeyed : Keyed Symbol.id symbols)
    (hkind : edge.kind.isNamed = false) : edge ∈ edgesFrom unicode owned symbols ↔
      Proposes unicode symbols edge ∧ Leaves owned symbols edge := by
  rw [mem_edgesFrom hkeyed]
  exact and_congr_left' ⟨fun hbest => hbest.1, fun h => h.best hkeyed hkind⟩

theorem mem_edgesFrom_part_named (hkeyed : Keyed Symbol.id symbols)
    (h : Names unicode owned symbols found) (hkind : edge.kind.isNamed = true) :
    edge ∈ edgesFrom unicode owned (symbols.filter found) ↔ edge ∈ edgesFrom unicode owned symbols := by
  rw [mem_edgesFrom (hkeyed.filter _), mem_edgesFrom hkeyed, leaves_part h]
  exact and_congr_left fun hleaves => best_part_named hkeyed h hleaves hkind

/-- **The part adds no edge** if and only if the fan-out cap sees the readers of the keys. -/
theorem edgesFrom_subset_iff (hkeyed : Keyed Symbol.id symbols)
    (h : Names unicode owned symbols found) :
    (∀ edge ∈ edgesFrom unicode owned (symbols.filter found), edge ∈ edgesFrom unicode owned symbols) ↔
      KeepsCap owned symbols found := by
  constructor
  · intro hsubset keySym hkey hconfig hreader hfound hcap
    obtain ⟨reader, hreader, hpath⟩ := hreader
    have hmem := mem_of_mem_keyReaders hreader
    have hpart : ConfigReadEdge (symbols.filter found) (.new reader.id keySym.id .reads (7 / 10)) :=
      configReadEdge_part.2 ⟨keySym, hkey, hfound, hconfig, hcap, reader, hreader,
        h.sources reader hmem hpath, rfl⟩
    have hleaves : Leaves owned symbols (.new reader.id keySym.id .reads (7 / 10)) :=
      ⟨reader, hmem, rfl, hpath⟩
    have hwhole := hsubset _ ((mem_edgesFrom_of_not_named (hkeyed.filter _) rfl).2
      ⟨.inr (.inr (.inr (.inl hpart))), (leaves_part h).2 hleaves⟩)
    have hproposed := ((mem_edgesFrom_of_not_named hkeyed rfl).1 hwhole).1
    obtain ⟨keySym', hkey', -, hcap', reader', -, he⟩ := hproposed.configReadEdge hkeyed rfl
      (mem_of_mem_integrationCandidates hkey) rfl hconfig
    rwa [hkeyed.eq (mem_of_mem_integrationCandidates hkey) (mem_of_mem_integrationCandidates hkey')
      (congrArg ResolvedEdge.dstId he)]
  · intro hcap edge hedge
    cases hkind : edge.kind.isNamed with
    | true => exact (mem_edgesFrom_part_named hkeyed h hkind).1 hedge
    | false =>
      obtain ⟨hproposed, hleaves⟩ := (mem_edgesFrom_of_not_named (hkeyed.filter _) hkind).1 hedge
      rw [leaves_part h] at hleaves
      refine (mem_edgesFrom_of_not_named hkeyed hkind).2 ⟨?_, hleaves⟩
      rcases hproposed with hrule | hrule | hrule | hrule | hrule
      · exact .inl ((callEdge_part hkeyed h hleaves).1 hrule)
      · exact .inr (.inl ((baseEdge_part hkeyed h hleaves).1 hrule))
      · exact .inr (.inr (.inl hrule.of_part))
      · obtain ⟨keySym, hkey, hfound, hconfig, hfew, reader, hreader, -, rfl⟩ :=
          configReadEdge_part.1 hrule
        have hmem := mem_of_mem_keyReaders hreader
        have hpath := source_owned hkeyed hmem rfl hleaves
        exact .inr (.inr (.inr (.inl ⟨keySym, hkey, hconfig,
          hcap keySym hkey hconfig ⟨reader, hreader, hpath⟩ hfound hfew, reader, hreader, rfl⟩)))
      · exact .inr (.inr (.inr (.inr hrule.of_part)))

/-- **The part loses no edge** if and only if it has what the rules need. -/
theorem edgesFrom_supset_iff (hkeyed : Keyed Symbol.id symbols)
    (h : Names unicode owned symbols found) :
    (∀ edge ∈ edgesFrom unicode owned symbols, edge ∈ edgesFrom unicode owned (symbols.filter found)) ↔
      Covered unicode owned symbols found := by
  constructor
  · intro hsupset
    -- the destination of an edge of the part is found
    have hfound : ∀ src ∈ symbols, src.filePath ∈ owned → ∀ dst ∈ symbols, ∀ kind confidence,
        Proposes unicode symbols (.new src.id dst.id kind confidence) → kind.isNamed = false →
        found dst = true := by
      intro src hsrc hpath dst hdst kind confidence hproposed hkind
      have hpart := hsupset _ ((mem_edgesFrom_of_not_named hkeyed hkind).2
        ⟨hproposed, src, hsrc, rfl, hpath⟩)
      have hjoins := ((mem_edgesFrom_of_not_named (hkeyed.filter _) hkind).1 hpart).1.joins
      obtain ⟨dst', hdst', hid⟩ := hjoins.dst
      obtain ⟨hmem, hfound⟩ := List.mem_filter.1 hdst'
      rwa [hkeyed.eq hmem hdst hid] at hfound
    refine ⟨fun route hroute hpath hkind handler hhandler hlang hname hne => ?_,
      fun site hsite hpath hlang hkind sqlSym hsql hname hnorm hmatch hne => ?_,
      fun keySym hkey hconfig hreader hcap => ?_⟩
    · exact hfound route (mem_of_mem_integrationCandidates hroute) hpath handler
        (mem_of_mem_integrationCandidates hhandler) .routesTo 1
        (.inr (.inr (.inl ⟨route, hroute, hkind, handler, hhandler, hlang, hname, hne, rfl⟩))) rfl
    · obtain ⟨kind, hkind⟩ := Option.isSome_iff_exists.1 hkind
      refine hfound site (mem_of_mem_integrationCandidates hsite) hpath sqlSym
        (mem_of_mem_integrationCandidates hsql) kind (65 / 100)
        (.inr (.inr (.inr (.inr ⟨site, hsite, hlang, kind, hkind, sqlSym, hsql, hname, hnorm, hmatch,
          hne, rfl⟩)))) ?_
      rcases queryKind_cases hkind with rfl | rfl
      · rfl
      · rfl
    · obtain ⟨reader, hreader, hpath⟩ := hreader
      exact hfound reader (mem_of_mem_keyReaders hreader) hpath keySym
        (mem_of_mem_integrationCandidates hkey) .reads (7 / 10)
        (.inr (.inr (.inr (.inl ⟨keySym, hkey, hconfig, hcap, reader, hreader, rfl⟩)))) rfl
  · intro hcovered edge hedge
    cases hkind : edge.kind.isNamed with
    | true => exact (mem_edgesFrom_part_named hkeyed h hkind).2 hedge
    | false =>
      obtain ⟨hproposed, hleaves⟩ := (mem_edgesFrom_of_not_named hkeyed hkind).1 hedge
      refine (mem_edgesFrom_of_not_named (hkeyed.filter _) hkind).2 ⟨?_, (leaves_part h).2 hleaves⟩
      rcases hproposed with hrule | hrule | hrule | hrule | hrule
      · exact .inl ((callEdge_part hkeyed h hleaves).2 hrule)
      · exact .inr (.inl ((baseEdge_part hkeyed h hleaves).2 hrule))
      · obtain ⟨route, hroute, hroutes, handler, hhandler, hlang, hname, hne, rfl⟩ := hrule
        have hmem := mem_of_mem_integrationCandidates hroute
        have hpath := source_owned hkeyed hmem rfl hleaves
        exact .inr (.inr (.inl ⟨route, mem_integrationCandidates_filter.2
          ⟨hroute, h.sources route hmem hpath⟩, hroutes, handler, mem_integrationCandidates_filter.2
          ⟨hhandler, hcovered.handlers route hroute hpath hroutes handler hhandler hlang hname hne⟩,
          hlang, hname, hne, rfl⟩))
      · obtain ⟨keySym, hkey, hconfig, hcap, reader, hreader, rfl⟩ := hrule
        have hmem := mem_of_mem_keyReaders hreader
        have hpath := source_owned hkeyed hmem rfl hleaves
        exact .inr (.inr (.inr (.inl (configReadEdge_part.2 ⟨keySym, hkey,
          hcovered.keys keySym hkey hconfig ⟨reader, hreader, hpath⟩ hcap, hconfig,
          (List.length_filter_le _ _).trans hcap, reader, hreader, h.sources reader hmem hpath, rfl⟩))))
      · obtain ⟨site, hsite, hlang, kind, hqueried, sqlSym, hsql, hname, hnorm, hmatch, hne, rfl⟩ := hrule
        have hmem := mem_of_mem_integrationCandidates hsite
        have hpath := source_owned hkeyed hmem rfl hleaves
        exact .inr (.inr (.inr (.inr ⟨site, mem_integrationCandidates_filter.2
          ⟨hsite, h.sources site hmem hpath⟩, hlang, kind, hqueried, sqlSym,
          mem_integrationCandidates_filter.2 ⟨hsql, hcovered.sqlNames site hsite hpath hlang
            (by rw [hqueried]; rfl) sqlSym hsql hname hnorm hmatch hne⟩, hname, hnorm, hmatch, hne, rfl⟩)))

end

end Cognis
