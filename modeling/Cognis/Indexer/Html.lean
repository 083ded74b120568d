/-
  The HTML extractor (`parser/artifact/html.rs`): the routes in the attribute values and in
  the string literals of the scripts, and the functions that the scripts define.

  The scanners read the text by positions, as the source does; `none` stands for an access
  that is out of range or a loop that has not finished.
-/
import Cognis.Indexer.Artifact
import Cognis.Lib.Cursor
import Cognis.Lib.Table

namespace Cognis

open Cursor Text

namespace Artifact

namespace Html

/-- `RouteOcc`: a route literal, from the position of its first character. -/
structure RouteOcc where
  start : ℕ
  value : List Char
  lineStart : UInt32
  lineEnd : UInt32
  deriving DecidableEq, Repr

/-- `Func` -/
structure Func where
  name : List Char
  lineStart : UInt32
  lineEnd : UInt32
  deriving DecidableEq, Repr

/-! ## Lexical primitives -/

section

variable (classes : CharClasses)

def isIdentStart (c : Char) : Bool := classes.isAlphabetic c || c = '_' || c = '$'

def isIdentChar (c : Char) : Bool := classes.isAlphanumeric c || c = '_' || c = '$'

def keywords : List (List Char) :=
  ["if", "for", "while", "switch", "catch", "return", "function", "do", "else", "with", "typeof",
    "void", "delete", "new", "in", "of", "instanceof", "await", "yield", "case", "super", "var",
    "let", "const", "class", "throw", "try", "finally", "import", "export", "default", "extends",
    "async"].map String.toList

/-- `is_keyword` -/
def isKeyword (word : List Char) : Bool := keywords.contains word

/-- `["'‹backquote›]` -/
def isJsQuote (c : Char) : Bool := c = '\'' || c = '"' || c = '\x60'

variable (chars : List Char)

/-- `skip_ws` -/
def skipWs (e pos : ℕ) : Option ℕ := advanceWhile chars isWhitespace e pos

/-- `matches_ci` -/
def matchesCi (pos : ℕ) (needle : List Char) : Option Bool :=
  if chars.length < pos + needle.length then some false
  else (slice chars pos (pos + needle.length)).map fun word => decide (toAsciiLowercase word = needle)

/-- `keyword_at` -/
def keywordAt (p : ℕ) (kw : List Char) : Option Bool :=
  if chars.length < p + kw.length then some false
  else do
    let word ← slice chars p (p + kw.length)
    if word ≠ kw then some false
    else if p + kw.length < chars.length then do
      let c ← chars[p + kw.length]?
      some !isIdentChar classes c
    else some true

/-- A tag at a position. -/
def tagAt (i : ℕ) (name : List Char) : Option Bool := do
  let c ← chars[i]?
  if c = '<' then matchesCi chars (i + 1) name else some false

/-- The end of a literal whose content begins at `k`: the position of its closing quote, or
    one from `e` on. -/
def literalEnd (q : Char) (e k : ℕ) : Option ℕ :=
  scan e (fun (_ : Unit) k => do
    let c ← chars[k]?
    if c = '\\' then some (.next () (k + 2))
    else if c = q then some (.stop k)
    else some (.next () (k + 1))) (fun _ k => k) () k

/-- `match_paren_js` -/
def matchParenJs (start e : ℕ) : Option (Option ℕ) :=
  scan e (fun (depth : Int32) j => do
    let c ← chars[j]?
    if isJsQuote c then do
      let k ← literalEnd chars c e (j + 1)
      some (.next depth (k + 1))
    else if c = '(' then some (.next (depth + 1) (j + 1))
    else if c = ')' then
      if depth - 1 = 0 then some (.stop (some j)) else some (.next (depth - 1) (j + 1))
    else some (.next depth (j + 1))) (fun _ _ => none) 1 start

/-- `=>` at a position. -/
def arrowAt (e q : ℕ) : Option Bool :=
  if q + 1 < e then do
    let c ← chars[q]?
    let d ← chars[q + 1]?
    some (c = '=' && d = '>')
  else some false

/-- The arrow after the closing parenthesis. -/
def parenArrow (e p : ℕ) : Option Bool := do
  match ← matchParenJs chars (p + 1) e with
  | some close => arrowAt chars e (← skipWs chars e (close + 1))
  | none => some false

/-- The branches of `is_function_rhs` after `async`. -/
def functionAt (e p : ℕ) : Option Bool := do
  if ← keywordAt classes chars p "function".toList then some true
  else if p < e then do
    let c ← chars[p]?
    if c = '(' then parenArrow chars e p
    else if isIdentStart classes c then do
      let q ← advanceWhile chars (isIdentChar classes) e p
      arrowAt chars e (← skipWs chars e q)
    else some false
  else some false

/-- `is_function_rhs` -/
def isFunctionRhs (r e : ℕ) : Option Bool := do
  if ← keywordAt classes chars r "async".toList then
    functionAt classes chars e (← skipWs chars e (r + 5))
  else functionAt classes chars e r

/-! ## The scanners -/

variable (lineNo : List UInt32)

/-- `line_at` -/
def lineAt (pos : ℕ) : Option UInt32 :=
  if lineNo = [] then some 1 else lineNo[min pos (lineNo.length - 1)]?

/-- `route_occ_if_slash` -/
def routeOccIfSlash (vstart vend : ℕ) : Option (Option RouteOcc) :=
  if vend ≤ vstart ∨ chars.length ≤ vstart then some none
  else do
    let c ← chars[vstart]?
    if c ≠ '/' then some none
    else do
      let value ← slice chars vstart vend
      let lineStart ← lineAt lineNo vstart
      let lineEnd ← lineAt lineNo (vend - 1)
      some (some ⟨vstart, value, lineStart, max lineEnd lineStart⟩)

/-- `func_at` -/
def funcAt (name : List Char) (pos : ℕ) : Option Func :=
  (lineAt lineNo pos).map fun line => ⟨name, line, line⟩

/-- The end of an opening tag: the position of its `>`, which does not stand in quotes. -/
def tagEnd (j : ℕ) : Option ℕ :=
  scan chars.length (fun (_ : Unit) j => do
    let c ← chars[j]?
    if c = '>' then some (.stop j)
    else if c = '"' ∨ c = '\'' then do
      let k ← advanceWhile chars (· ≠ c) chars.length (j + 1)
      some (.next () (k + 1))
    else some (.next () (j + 1))) (fun _ j => j) () j

/-- The closing tag of a script. -/
def closingTag (k : ℕ) : Option ℕ :=
  scan chars.length (fun (_ : Unit) k => do
    if ← tagAt chars k "/script".toList then some (.stop k)
    else some (.next () (k + 1))) (fun _ k => k) () k

/-- `script_regions` -/
def scriptRegions : Option (List (ℕ × ℕ)) :=
  let n := chars.length
  scan n (fun regions i => do
    if ← tagAt chars i "script".toList then do
      let j ← tagEnd chars (i + 7)
      let contentStart := min (j + 1) n
      let k ← closingTag chars contentStart
      let contentEnd := min k n
      let regions :=
        if contentStart ≤ contentEnd then regions ++ [(contentStart, contentEnd)] else regions
      some (.next regions (if k < n then k + 1 else n))
    else some (.next regions (i + 1))) (fun regions _ => regions) [] 0

/-- `scan_attr_routes` -/
def scanAttrRoutes : Option (List RouteOcc) :=
  let n := chars.length
  scan n (fun out i => do
    let c ← chars[i]?
    if c = '=' then do
      let j ← skipWs chars n (i + 1)
      let q ← peek chars ' ' n j
      if q = '"' ∨ q = '\'' then do
        let k ← advanceWhile chars (· ≠ q) n (j + 1)
        let occ ← routeOccIfSlash chars lineNo (j + 1) k
        some (.next (out ++ occ.toList) (max (k + 1) (i + 1)))
      else some (.next out (i + 1))
    else some (.next out (i + 1))) (fun out _ => out) [] 0

/-- What `scan_js` has found, and the last significant character before the position. -/
structure JsState where
  prevSig : Char := ';'
  routes : List RouteOcc
  funcs : List Func

/-- The end of a block comment whose content begins at `j`. -/
def blockEnd (e j : ℕ) : Option ℕ :=
  scan (e - 1) (fun (_ : Unit) j => do
    let c ← chars[j]?
    let d ← chars[j + 1]?
    if c = '*' ∧ d = '/' then some (.stop j) else some (.next () (j + 1))) (fun _ j => j) () j

/-- The literal that begins at `j`. -/
def jsLiteral (e : ℕ) (st : JsState) (q : Char) (j : ℕ) : Option (Move JsState JsState) := do
  let k ← literalEnd chars q e (j + 1)
  let occ ← routeOccIfSlash chars lineNo (j + 1) (min k e)
  some (.next { st with prevSig := '"', routes := st.routes ++ occ.toList } (max (min (k + 1) e) (j + 1)))

/-- The star of a generator. -/
def skipStar (e p : ℕ) : Option ℕ := do
  if (← peek chars ' ' e p) = '*' then skipWs chars e (p + 1) else some p

/-- After these characters `function` begins an expression, whose name is not used. -/
def beginsExpression (prevSig : Char) : Bool :=
  prevSig = '=' || prevSig = '(' || prevSig = ':' || prevSig = ','

/-- The function of a name that ends at `q`, if it is to be kept. -/
def foundAt (keep : Bool) (name : List Char) (pos : ℕ) : Option (List Func) :=
  if keep then (funcAt lineNo name pos).map ([·]) else some []

/-- `function`, which ends at `j`. -/
def jsFunction (e : ℕ) (st : JsState) (j : ℕ) : Option (Move JsState JsState) := do
  let p ← skipStar chars e (← skipWs chars e j)
  let c ← peek chars ' ' e p
  if isIdentStart classes c then do
    let q ← advanceWhile chars (isIdentChar classes) e p
    let name ← slice chars p q
    let found ← foundAt lineNo (!beginsExpression st.prevSig) name p
    some (.next { st with prevSig := 'a', funcs := st.funcs ++ found } q)
  else some (.next { st with prevSig := 'a' } j)

/-- `NAME ( … ) {` -/
def isMethod (e p : ℕ) : Option Bool := do
  match ← matchParenJs chars (p + 1) e with
  | some close =>
    let c ← peek chars ' ' e (← skipWs chars e (close + 1))
    some (decide (c = '{'))
  | none => some false

/-- `NAME = <function value>` -/
def isBinding (e p : ℕ) : Option Bool := do
  let d ← peek chars ' ' e (p + 1)
  if d = '=' ∨ d = '>' then some false
  else isFunctionRhs classes chars (← skipWs chars e (p + 1)) e

/-- What comes after an identifier that ends at `stop` makes it the name of a function. -/
def definesFunction (e : ℕ) (word : List Char) (stop : ℕ) : Option Bool := do
  let p ← skipWs chars e stop
  let c ← peek chars ' ' e p
  if c = '(' ∧ !isKeyword word then isMethod chars e p
  else if c = '=' then isBinding classes chars e p
  else some false

/-- Another identifier, from `start` to `stop`. -/
def jsName (e : ℕ) (st : JsState) (word : List Char) (start stop : ℕ) :
    Option (Move JsState JsState) := do
  let found ← foundAt lineNo (← definesFunction classes chars e word stop) word start
  some (.next { st with prevSig := 'a', funcs := st.funcs ++ found } stop)

/-- An identifier or a keyword that begins at `j`. -/
def jsWord (e : ℕ) (st : JsState) (j : ℕ) : Option (Move JsState JsState) := do
  let stop ← advanceWhile chars (isIdentChar classes) e j
  let word ← slice chars j stop
  if word = "function".toList then jsFunction classes chars lineNo e st stop
  else jsName classes chars lineNo e st word j stop

/-- A turn of the loop of `scan_js`. -/
def jsTurn (e : ℕ) (st : JsState) (j : ℕ) : Option (Move JsState JsState) := do
  let c ← chars[j]?
  let d ← peek chars ' ' e (j + 1)
  if c = '/' ∧ d = '/' then some (.next st (← advanceWhile chars (· ≠ '\n') e j))
  else if c = '/' ∧ d = '*' then some (.next st (min ((← blockEnd chars e (j + 2)) + 2) e))
  else if isJsQuote c then jsLiteral chars lineNo e st c j
  else if isIdentStart classes c then jsWord classes chars lineNo e st j
  else some (.next (if isWhitespace c then st else { st with prevSig := c }) (j + 1))

/-- `scan_js`, on the region from `s` to `e` -/
def scanJs (s e : ℕ) (routes : List RouteOcc) (funcs : List Func) : Option JsState :=
  scan e (jsTurn classes chars lineNo e) (fun st _ => st) { routes, funcs } s

/-- The scripts, one after the other. -/
def scanScripts : List (ℕ × ℕ) → List RouteOcc → List Func → Option (List RouteOcc × List Func)
  | [], routes, funcs => some (routes, funcs)
  | (s, e) :: regions, routes, funcs => do
    let st ← scanJs classes chars lineNo s e routes funcs
    scanScripts regions st.routes st.funcs

end

/-- The first occurrences. -/
def firstOccurrences (seen : List (List Char)) : List RouteOcc → List RouteOcc
  | [] => []
  | occ :: occs =>
    if occ.value ∈ seen then firstOccurrences seen occs
    else occ :: firstOccurrences (occ.value :: seen) occs

/-- `dedupe_routes` -/
def dedupeRoutes (occs : List RouteOcc) : List RouteOcc :=
  firstOccurrences [] (Table.sortOn RouteOcc.start occs)

/-- The routes and the functions of a document. -/
def declarations (classes : CharClasses) (source : List Char) :
    Option (List RouteOcc × List Func) := do
  let lineNo := lineNumbers 1 source
  let attrs ← scanAttrRoutes source lineNo
  let regions ← scriptRegions source
  let (occs, funcs) ← scanScripts classes source lineNo regions attrs []
  some (dedupeRoutes occs, funcs)

/-! ## What the scanners find -/

/-- A route begins with a slash, and its lines are lines of the text. -/
structure RouteOcc.Found (lineNo : List UInt32) (occ : RouteOcc) : Prop where
  slash : occ.value.head? = some '/'
  lineStart : occ.lineStart ∈ lineNo
  lineEnd : occ.lineEnd ∈ lineNo

/-- A function has a name, and its line is a line of the text. -/
structure Func.Found (classes : CharClasses) (lineNo : List UInt32) (func : Func) : Prop where
  named : ∃ c, func.name.head? = some c ∧ isIdentStart classes c = true
  lineStart : func.lineStart ∈ lineNo
  lineEnd : func.lineEnd ∈ lineNo

section

variable {classes : CharClasses} {chars : List Char} {lineNo : List UInt32} {e : ℕ}

theorem isIdentChar_of_isIdentStart {c : Char} (h : isIdentStart classes c = true) :
    isIdentChar classes c = true := by
  simp only [isIdentStart, isIdentChar, Bool.or_eq_true] at h ⊢
  rcases h with (h | h) | h
  · exact .inl (.inl (classes.alphanumeric_of_alphabetic c h))
  · exact .inl (.inr h)
  · exact .inr h

theorem skipWs_spec (he : e ≤ chars.length) (pos : ℕ) :
    ∃ p, skipWs chars e pos = some p ∧ pos ≤ p := by
  obtain ⟨p, hp, hadvanced⟩ := advanceWhile_spec he pos
  exact ⟨p, hp, hadvanced.le⟩

theorem matchesCi_spec (pos : ℕ) (needle : List Char) :
    ∃ b, matchesCi chars pos needle = some b ∧ (b = true → pos + needle.length ≤ chars.length) := by
  rw [matchesCi]
  split_ifs with h
  · exact ⟨false, rfl, fun h => by cases h⟩
  · rw [slice_of_le (by omega) (by omega)]
    exact ⟨_, rfl, fun _ => by omega⟩

theorem keywordAt_spec (p : ℕ) (kw : List Char) : ∃ b, keywordAt classes chars p kw = some b := by
  rw [keywordAt]
  by_cases h : chars.length < p + kw.length
  · exact ⟨false, if_pos h⟩
  · rw [if_neg h, slice_of_le (by omega) (by omega), Option.bind_eq_bind, Option.bind_some]
    split_ifs with hword hafter
    · exact ⟨false, rfl⟩
    · obtain ⟨c, hc⟩ := exists_getElem? hafter
      rw [hc]
      exact ⟨_, rfl⟩
    · exact ⟨true, rfl⟩

theorem literalEnd_spec (he : e ≤ chars.length) (q : Char) (start : ℕ) :
    ∃ k, literalEnd chars q e start = some k ∧ start ≤ k := by
  refine scan_rule (I := fun _ i => start ≤ i) ?_ (fun _ _ _ h => h) le_rfl
  intro _ k hk hstart
  obtain ⟨c, hc⟩ := exists_getElem? (hk.trans_le he)
  rw [hc, Option.bind_eq_bind, Option.bind_some]
  split_ifs
  · exact ⟨_, rfl, .next (by omega) (by omega)⟩
  · exact ⟨_, rfl, .stop hstart⟩
  · exact ⟨_, rfl, .next (by omega) (by omega)⟩

theorem matchParenJs_spec (he : e ≤ chars.length) (start : ℕ) :
    ∃ r, matchParenJs chars start e = some r ∧ ∀ close ∈ r, close < e := by
  refine scan_rule (I := fun _ _ => True) ?_ (fun _ _ _ _ _ h => by cases h) trivial
  intro depth j hj _
  obtain ⟨c, hc⟩ := exists_getElem? (hj.trans_le he)
  rw [hc, Option.bind_eq_bind, Option.bind_some]
  split_ifs
  · obtain ⟨k, hk, hle⟩ := literalEnd_spec he c (j + 1)
    rw [hk]
    exact ⟨_, rfl, .next (by omega) trivial⟩
  · exact ⟨_, rfl, .next (by omega) trivial⟩
  · refine ⟨_, rfl, .stop ?_⟩
    rintro close ⟨⟩
    exact hj
  · exact ⟨_, rfl, .next (by omega) trivial⟩
  · exact ⟨_, rfl, .next (by omega) trivial⟩

theorem arrowAt_spec (he : e ≤ chars.length) (q : ℕ) : ∃ b, arrowAt chars e q = some b := by
  rw [arrowAt]
  split_ifs with h
  · obtain ⟨c, hc⟩ := exists_getElem? (show q < chars.length by omega)
    obtain ⟨d, hd⟩ := exists_getElem? (show q + 1 < chars.length by omega)
    rw [hc, hd]
    exact ⟨_, rfl⟩
  · exact ⟨false, rfl⟩

theorem parenArrow_spec (he : e ≤ chars.length) (p : ℕ) : ∃ b, parenArrow chars e p = some b := by
  obtain ⟨close, hclose, -⟩ := matchParenJs_spec he (p + 1)
  rw [parenArrow, hclose, Option.bind_eq_bind, Option.bind_some]
  cases close with
  | none => exact ⟨false, rfl⟩
  | some close =>
    obtain ⟨q, hq, -⟩ := skipWs_spec he (close + 1)
    obtain ⟨b, hb⟩ := arrowAt_spec he q
    simp only [hq, Option.bind_eq_bind, Option.bind_some, hb]
    exact ⟨b, rfl⟩

theorem functionAt_spec (he : e ≤ chars.length) (p : ℕ) :
    ∃ b, functionAt classes chars e p = some b := by
  obtain ⟨isFunction, hfunction⟩ : ∃ b, keywordAt classes chars p "function".toList = some b :=
    keywordAt_spec p _
  rw [functionAt, hfunction, Option.bind_eq_bind, Option.bind_some]
  split_ifs with h hp
  · exact ⟨true, rfl⟩
  · obtain ⟨c, hc⟩ := exists_getElem? (hp.trans_le he)
    rw [hc, Option.bind_eq_bind, Option.bind_some]
    split_ifs
    · exact parenArrow_spec he p
    · obtain ⟨q, hq, -⟩ : ∃ q, advanceWhile chars (isIdentChar classes) e p = some q ∧ _ :=
        advanceWhile_spec he p
      obtain ⟨r, hr, -⟩ := skipWs_spec he q
      obtain ⟨b, hb⟩ := arrowAt_spec he r
      simp only [hq, Option.bind_eq_bind, Option.bind_some, hr, hb]
      exact ⟨b, rfl⟩
    · exact ⟨false, rfl⟩
  · exact ⟨false, rfl⟩

theorem isFunctionRhs_spec (he : e ≤ chars.length) (r : ℕ) :
    ∃ b, isFunctionRhs classes chars r e = some b := by
  obtain ⟨isAsync, hasync⟩ : ∃ b, keywordAt classes chars r "async".toList = some b :=
    keywordAt_spec r _
  rw [isFunctionRhs, hasync, Option.bind_eq_bind, Option.bind_some]
  split_ifs
  · obtain ⟨q, hq, -⟩ := skipWs_spec he (r + 5)
    rw [hq, Option.bind_eq_bind, Option.bind_some]
    exact functionAt_spec he q
  · exact functionAt_spec he r

theorem lineAt_spec (hline : lineNo.length = chars.length) {pos : ℕ} (hpos : pos < chars.length) :
    ∃ line, lineAt lineNo pos = some line ∧ line ∈ lineNo := by
  have hne : lineNo ≠ [] := by
    rintro rfl
    rw [List.length_nil] at hline
    omega
  obtain ⟨line, hget⟩ := exists_getElem? (show min pos (lineNo.length - 1) < lineNo.length by omega)
  exact ⟨line, (if_neg hne).trans hget, List.mem_of_getElem? hget⟩

theorem routeOccIfSlash_spec (hline : lineNo.length = chars.length) {vstart vend : ℕ}
    (hend : vend ≤ chars.length) :
    ∃ occ, routeOccIfSlash chars lineNo vstart vend = some occ ∧ ∀ o ∈ occ, o.Found lineNo := by
  rw [routeOccIfSlash]
  split_ifs with h
  · exact ⟨none, rfl, fun o ho => by cases ho⟩
  · obtain ⟨hlt, hstart⟩ := not_or.1 h
    obtain ⟨c, hc⟩ := exists_getElem? (Nat.lt_of_not_le hstart)
    rw [hc, Option.bind_eq_bind, Option.bind_some]
    split_ifs with hslash
    · exact ⟨none, rfl, fun o ho => by cases ho⟩
    · obtain ⟨first, hfirst, hfirstmem⟩ := lineAt_spec hline (Nat.lt_of_not_le hstart)
      obtain ⟨last, hlast, hlastmem⟩ := lineAt_spec hline (show vend - 1 < chars.length by omega)
      rw [slice_of_le (by omega) hend, hfirst, hlast]
      refine ⟨_, rfl, ?_⟩
      rintro o ⟨⟩
      refine ⟨?_, hfirstmem, ?_⟩
      · rw [List.head?_drop, List.getElem?_take_of_lt (by omega), hc, not_not.1 hslash]
      · dsimp only
        rw [UInt32.max_def]
        split_ifs
        · exact hfirstmem
        · exact hlastmem

theorem funcAt_spec (hline : lineNo.length = chars.length) {pos : ℕ} (hpos : pos < chars.length)
    {name : List Char} (hname : ∃ c, name.head? = some c ∧ isIdentStart classes c = true) :
    ∃ func, funcAt lineNo name pos = some func ∧ func.Found classes lineNo := by
  obtain ⟨line, hget, hmem⟩ := lineAt_spec hline hpos
  rw [funcAt, hget]
  exact ⟨_, rfl, hname, hmem, hmem⟩

/-- Everything that has been found is as it should be. -/
structure JsState.Found (classes : CharClasses) (lineNo : List UInt32) (st : JsState) : Prop where
  routes : ∀ occ ∈ st.routes, occ.Found lineNo
  funcs : ∀ func ∈ st.funcs, func.Found classes lineNo

theorem JsState.Found.push {st : JsState} (h : st.Found classes lineNo) {found : List Func}
    (hfound : ∀ func ∈ found, func.Found classes lineNo) (c : Char) :
    JsState.Found classes lineNo { st with prevSig := c, funcs := st.funcs ++ found } :=
  ⟨h.routes, fun func hfunc => (List.mem_append.1 hfunc).elim (h.funcs func) (hfound func)⟩

theorem blockEnd_spec (he : e ≤ chars.length) (start : ℕ) :
    ∃ j, blockEnd chars e start = some j ∧ start ≤ j := by
  refine scan_rule (I := fun _ i => start ≤ i) ?_ (fun _ _ _ h => h) le_rfl
  intro _ j hj hstart
  obtain ⟨c, hc⟩ := exists_getElem? (show j < chars.length by omega)
  obtain ⟨d, hd⟩ := exists_getElem? (show j + 1 < chars.length by omega)
  rw [hc, hd, Option.bind_eq_bind, Option.bind_some]
  simp only [Option.bind_some]
  split_ifs
  · exact ⟨_, rfl, .stop hstart⟩
  · exact ⟨_, rfl, .next (by omega) (by omega)⟩

theorem jsLiteral_spec (he : e ≤ chars.length) (hline : lineNo.length = chars.length) {st : JsState}
    (h : st.Found classes lineNo) (q : Char) (j : ℕ) :
    ∃ t, jsLiteral chars lineNo e st q j = some t ∧
      t.Meets (fun st _ => st.Found classes lineNo) (JsState.Found classes lineNo) j := by
  obtain ⟨k, hk, -⟩ := literalEnd_spec he q (j + 1)
  obtain ⟨occ, hocc, hfound⟩ : ∃ occ, routeOccIfSlash chars lineNo (j + 1) (min k e) = some occ ∧
      ∀ o ∈ occ, o.Found lineNo := routeOccIfSlash_spec hline (by omega)
  rw [jsLiteral, hk, Option.bind_eq_bind, Option.bind_some, hocc]
  refine ⟨_, rfl, .next (by omega) ⟨fun o ho => ?_, h.funcs⟩⟩
  rcases List.mem_append.1 ho with ho | ho
  · exact h.routes o ho
  · exact hfound o (Option.mem_toList.1 ho)

/-- A word that begins with a character of identifiers. -/
theorem head?_word {start stop : ℕ} {c : Char} (hc : chars[start]? = some c) (hlt : start < stop) :
    ((chars.take stop).drop start).head? = some c := by
  rw [List.head?_drop, List.getElem?_take_of_lt hlt, hc]

/-- The end of a word that begins at a position. -/
theorem wordEnd_spec (he : e ≤ chars.length) {start : ℕ} (hstart : start < e) {c : Char}
    (hc : chars[start]? = some c) (hident : isIdentStart classes c = true) :
    ∃ stop, advanceWhile chars (isIdentChar classes) e start = some stop ∧ start < stop ∧ stop ≤ e ∧
      slice chars start stop = some ((chars.take stop).drop start) ∧
      ∃ c, ((chars.take stop).drop start).head? = some c ∧ isIdentStart classes c = true := by
  obtain ⟨stop, hstop, hadvanced⟩ : ∃ stop, advanceWhile chars (isIdentChar classes) e start = some stop ∧
    Advanced chars (isIdentChar classes) e start stop := advanceWhile_spec he start
  have hle := hadvanced.le
  have hle' := hadvanced.le_stop
  have hlt : start < stop := by
    rcases Nat.eq_or_lt_of_le hle with heq | hlt
    · obtain ⟨d, hd, hno⟩ := hadvanced.ended (heq ▸ hstart)
      rw [← heq, hc] at hd
      cases hd
      rw [isIdentChar_of_isIdentStart hident] at hno
      cases hno
    · exact hlt
  exact ⟨stop, hstop, hlt, by omega, slice_of_le hle (by omega), c, head?_word hc hlt, hident⟩

theorem not_isIdentStart_blank : isIdentStart classes ' ' = false := by
  rw [isIdentStart, classes.alphabetic_ascii ' ' (by decide)]
  decide

theorem skipStar_spec (he : e ≤ chars.length) (p : ℕ) : ∃ q, skipStar chars e p = some q ∧ p ≤ q := by
  obtain ⟨c, hc, -⟩ := peek_spec he ' ' p
  rw [skipStar, hc, Option.bind_eq_bind, Option.bind_some]
  split_ifs
  · obtain ⟨q, hq, hle⟩ := skipWs_spec he (p + 1)
    exact ⟨q, hq, by omega⟩
  · exact ⟨p, rfl, le_rfl⟩

theorem foundAt_spec (hline : lineNo.length = chars.length) {pos : ℕ} (hpos : pos < chars.length)
    {name : List Char} (hname : ∃ c, name.head? = some c ∧ isIdentStart classes c = true)
    (keep : Bool) : ∃ found, foundAt lineNo keep name pos = some found ∧
      ∀ func ∈ found, func.Found classes lineNo := by
  rw [foundAt]
  split_ifs
  · obtain ⟨func, hfunc, hfound⟩ := funcAt_spec hline hpos hname
    rw [hfunc]
    exact ⟨_, rfl, List.forall_mem_singleton.2 hfound⟩
  · exact ⟨[], rfl, fun func hfunc => absurd hfunc List.not_mem_nil⟩

theorem jsFunction_spec (he : e ≤ chars.length) (hline : lineNo.length = chars.length) {st : JsState}
    (h : st.Found classes lineNo) {i j : ℕ} (hij : i < j) :
    ∃ t, jsFunction classes chars lineNo e st j = some t ∧
      t.Meets (fun st _ => st.Found classes lineNo) (JsState.Found classes lineNo) i := by
  obtain ⟨p, hp, hjp⟩ := skipWs_spec he j
  obtain ⟨p', hp', hpp'⟩ := skipStar_spec he p
  obtain ⟨c, hc, hread⟩ := peek_spec he ' ' p'
  simp only [jsFunction, hp, hp', hc, Option.bind_eq_bind, Option.bind_some]
  split_ifs with hident
  · rcases hread with ⟨hlt, hget⟩ | ⟨-, rfl⟩
    · obtain ⟨q, hq, hpq, -, hslice, hname⟩ := wordEnd_spec he hlt hget hident
      obtain ⟨found, hfound, hall⟩ := foundAt_spec hline (hlt.trans_le he) hname
        (!beginsExpression st.prevSig)
      simp only [hq, hslice, hfound, Option.bind_some]
      exact ⟨_, rfl, .next (by omega) (h.push hall 'a')⟩
    · rw [not_isIdentStart_blank] at hident
      cases hident
  · exact ⟨_, rfl, .next hij ⟨h.routes, h.funcs⟩⟩

theorem isMethod_spec (he : e ≤ chars.length) (p : ℕ) : ∃ b, isMethod chars e p = some b := by
  obtain ⟨close, hclose, -⟩ := matchParenJs_spec he (p + 1)
  rw [isMethod, hclose, Option.bind_eq_bind, Option.bind_some]
  cases close with
  | none => exact ⟨false, rfl⟩
  | some close =>
    obtain ⟨q, hq, -⟩ := skipWs_spec he (close + 1)
    obtain ⟨c, hc, -⟩ := peek_spec he ' ' q
    simp only [hq, hc, Option.bind_eq_bind, Option.bind_some]
    exact ⟨_, rfl⟩

theorem isBinding_spec (he : e ≤ chars.length) (p : ℕ) :
    ∃ b, isBinding classes chars e p = some b := by
  obtain ⟨d, hd, -⟩ := peek_spec he ' ' (p + 1)
  rw [isBinding, hd, Option.bind_eq_bind, Option.bind_some]
  split_ifs
  · exact ⟨false, rfl⟩
  · obtain ⟨q, hq, -⟩ := skipWs_spec he (p + 1)
    rw [hq, Option.bind_eq_bind, Option.bind_some]
    exact isFunctionRhs_spec he q

theorem definesFunction_spec (he : e ≤ chars.length) (word : List Char) (stop : ℕ) :
    ∃ b, definesFunction classes chars e word stop = some b := by
  obtain ⟨p, hp, -⟩ := skipWs_spec he stop
  obtain ⟨c, hc, -⟩ := peek_spec he ' ' p
  simp only [definesFunction, hp, hc, Option.bind_eq_bind, Option.bind_some]
  split_ifs
  · exact isMethod_spec he p
  · exact isBinding_spec he p
  · exact ⟨false, rfl⟩

theorem jsWord_spec (he : e ≤ chars.length) (hline : lineNo.length = chars.length) {st : JsState}
    (h : st.Found classes lineNo) {j : ℕ} (hj : j < e) {c : Char} (hc : chars[j]? = some c)
    (hident : isIdentStart classes c = true) :
    ∃ t, jsWord classes chars lineNo e st j = some t ∧
      t.Meets (fun st _ => st.Found classes lineNo) (JsState.Found classes lineNo) j := by
  obtain ⟨stop, hstop, hlt, -, hslice, hname⟩ := wordEnd_spec he hj hc hident
  simp only [jsWord, hstop, hslice, Option.bind_eq_bind, Option.bind_some]
  split_ifs
  · exact jsFunction_spec he hline h hlt
  · obtain ⟨defines, hdefines⟩ : ∃ b, definesFunction classes chars e _ stop = some b :=
      definesFunction_spec he ((chars.take stop).drop j) stop
    obtain ⟨found, hfound, hall⟩ := foundAt_spec hline (hj.trans_le he) hname defines
    simp only [jsName, hdefines, hfound, Option.bind_eq_bind, Option.bind_some]
    exact ⟨_, rfl, .next hlt (h.push hall 'a')⟩

theorem jsTurn_spec (he : e ≤ chars.length) (hline : lineNo.length = chars.length) {st : JsState}
    (h : st.Found classes lineNo) {j : ℕ} (hj : j < e) :
    ∃ t, jsTurn classes chars lineNo e st j = some t ∧
      t.Meets (fun st _ => st.Found classes lineNo) (JsState.Found classes lineNo) j := by
  obtain ⟨c, hc⟩ := exists_getElem? (hj.trans_le he)
  obtain ⟨d, hd, -⟩ := peek_spec he ' ' (j + 1)
  simp only [jsTurn, hc, hd, Option.bind_eq_bind, Option.bind_some]
  split_ifs with hcomment hblock hquote hident
  · obtain ⟨k, hk, hadvanced⟩ : ∃ k, advanceWhile chars (· ≠ '\n') e j = some k ∧
      Advanced chars (· ≠ '\n') e j k := advanceWhile_spec he j
    rw [hk, Option.bind_some]
    refine ⟨_, rfl, .next ?_ h⟩
    rcases Nat.eq_or_lt_of_le hadvanced.le with heq | hlt
    · obtain ⟨x, hx, hno⟩ := hadvanced.ended (heq ▸ hj)
      rw [← heq, hc] at hx
      cases hx
      rw [hcomment.1] at hno
      exact absurd hno (by decide)
    · exact hlt
  · obtain ⟨k, hk, hle⟩ := blockEnd_spec he (j + 2)
    rw [hk, Option.bind_some]
    exact ⟨_, rfl, .next (by omega) h⟩
  · exact jsLiteral_spec he hline h c j
  · exact jsWord_spec he hline h hj hc hident
  · exact ⟨_, rfl, .next (Nat.lt_succ_self j) h⟩
  · exact ⟨_, rfl, .next (Nat.lt_succ_self j) ⟨h.routes, h.funcs⟩⟩

theorem scanJs_spec (he : e ≤ chars.length) (hline : lineNo.length = chars.length) (s : ℕ)
    {routes : List RouteOcc} {funcs : List Func} (hroutes : ∀ occ ∈ routes, occ.Found lineNo)
    (hfuncs : ∀ func ∈ funcs, func.Found classes lineNo) :
    ∃ st, scanJs classes chars lineNo s e routes funcs = some st ∧ st.Found classes lineNo :=
  scan_rule (I := fun st _ => st.Found classes lineNo) (fun _ _ hj h => jsTurn_spec he hline h hj)
    (fun _ _ _ h => h) ⟨hroutes, hfuncs⟩

theorem scanScripts_spec (hline : lineNo.length = chars.length) {regions : List (ℕ × ℕ)}
    (hregions : ∀ region ∈ regions, region.2 ≤ chars.length) {routes : List RouteOcc}
    {funcs : List Func} (hroutes : ∀ occ ∈ routes, occ.Found lineNo)
    (hfuncs : ∀ func ∈ funcs, func.Found classes lineNo) :
    ∃ routes' funcs', scanScripts classes chars lineNo regions routes funcs = some (routes', funcs') ∧
      (∀ occ ∈ routes', occ.Found lineNo) ∧ ∀ func ∈ funcs', func.Found classes lineNo := by
  induction regions generalizing routes funcs with
  | nil => exact ⟨routes, funcs, rfl, hroutes, hfuncs⟩
  | cons region regions ih =>
    obtain ⟨hregion, hrest⟩ := List.forall_mem_cons.1 hregions
    obtain ⟨st, hst, hfound⟩ := scanJs_spec hregion hline region.1 hroutes hfuncs
    obtain ⟨routes', funcs', hscan, hall⟩ := ih hrest hfound.routes hfound.funcs
    refine ⟨routes', funcs', ?_, hall⟩
    rw [scanScripts, hst, Option.bind_eq_bind, Option.bind_some, hscan]

theorem tagAt_spec {i : ℕ} (hi : i < chars.length) (name : List Char) :
    ∃ b, tagAt chars i name = some b ∧ (b = true → i + 1 + name.length ≤ chars.length) := by
  obtain ⟨c, hc⟩ := exists_getElem? hi
  rw [tagAt, hc, Option.bind_eq_bind, Option.bind_some]
  split_ifs
  · exact matchesCi_spec (i + 1) name
  · exact ⟨false, rfl, fun h => by cases h⟩

theorem tagEnd_spec (start : ℕ) : ∃ j, tagEnd chars start = some j ∧ start ≤ j := by
  refine scan_rule (I := fun _ i => start ≤ i) ?_ (fun _ _ _ h => h) le_rfl
  intro _ j hj hstart
  obtain ⟨c, hc⟩ := exists_getElem? hj
  rw [hc, Option.bind_eq_bind, Option.bind_some]
  split_ifs
  · exact ⟨_, rfl, .stop hstart⟩
  · obtain ⟨k, hk, hadvanced⟩ : ∃ k, advanceWhile chars (· ≠ c) chars.length (j + 1) = some k ∧
      Advanced chars (· ≠ c) chars.length (j + 1) k := advanceWhile_spec le_rfl (j + 1)
    have hle := hadvanced.le
    rw [hk]
    exact ⟨_, rfl, .next (by omega) (by omega)⟩
  · exact ⟨_, rfl, .next (by omega) (by omega)⟩

theorem closingTag_spec (start : ℕ) : ∃ k, closingTag chars start = some k ∧ start ≤ k := by
  refine scan_rule (I := fun _ i => start ≤ i) ?_ (fun _ _ _ h => h) le_rfl
  intro _ k hk hstart
  obtain ⟨closes, hcloses, -⟩ := tagAt_spec hk "/script".toList
  rw [hcloses, Option.bind_eq_bind, Option.bind_some]
  split_ifs
  · exact ⟨_, rfl, .stop hstart⟩
  · exact ⟨_, rfl, .next (by omega) (by omega)⟩

theorem scriptRegions_spec : ∃ regions, scriptRegions chars = some regions ∧
    ∀ region ∈ regions, region.2 ≤ chars.length := by
  refine scan_rule (I := fun (regions : List (ℕ × ℕ)) _ => ∀ region ∈ regions, region.2 ≤ chars.length) ?_
    (fun _ _ _ h => h) (fun region hregion => absurd hregion List.not_mem_nil)
  intro regions i hi h
  obtain ⟨opens, hopens, hlen⟩ := tagAt_spec hi "script".toList
  rw [hopens, Option.bind_eq_bind, Option.bind_some]
  by_cases hopen : opens = true
  · obtain ⟨j, hj, hij⟩ : ∃ j, tagEnd chars (i + 7) = some j ∧ i + 7 ≤ j := tagEnd_spec (i + 7)
    obtain ⟨k, hk, hjk⟩ : ∃ k, closingTag chars (min (j + 1) chars.length) = some k ∧
      min (j + 1) chars.length ≤ k := closingTag_spec _
    have hscript := hlen hopen
    have hlength : "script".toList.length = 6 := rfl
    simp only [if_pos hopen, hj, hk, Option.bind_eq_bind, Option.bind_some]
    refine ⟨_, rfl, .next ?_ ?_⟩
    · split_ifs <;> omega
    · split_ifs
      · refine List.forall_mem_append.2 ⟨h, List.forall_mem_singleton.2 ?_⟩
        exact min_le_right _ _
      · exact h
  · rw [if_neg hopen]
    exact ⟨_, rfl, .next (Nat.lt_succ_self i) h⟩

theorem scanAttrRoutes_spec (hline : lineNo.length = chars.length) :
    ∃ out, scanAttrRoutes chars lineNo = some out ∧ ∀ occ ∈ out, occ.Found lineNo := by
  refine scan_rule (I := fun (out : List RouteOcc) _ => ∀ occ ∈ out, occ.Found lineNo) ?_
    (fun _ _ _ h => h) (fun occ hocc => absurd hocc List.not_mem_nil)
  intro out i hi h
  obtain ⟨c, hc⟩ := exists_getElem? hi
  obtain ⟨j, hj, hij⟩ := skipWs_spec (le_refl chars.length) (i + 1)
  obtain ⟨q, hq, -⟩ := peek_spec (le_refl chars.length) ' ' j
  simp only [hc, hj, hq, Option.bind_eq_bind, Option.bind_some]
  split_ifs
  · obtain ⟨k, hk, hadvanced⟩ : ∃ k, advanceWhile chars (· ≠ q) chars.length (j + 1) = some k ∧
      Advanced chars (· ≠ q) chars.length (j + 1) k := advanceWhile_spec le_rfl (j + 1)
    have hle := hadvanced.le_stop
    by_cases hkn : k ≤ chars.length
    · obtain ⟨occ, hocc, hfound⟩ : ∃ occ, routeOccIfSlash chars lineNo (j + 1) k = some occ ∧
        ∀ o ∈ occ, o.Found lineNo := routeOccIfSlash_spec hline hkn
      simp only [hk, hocc, Option.bind_some]
      refine ⟨_, rfl, .next (by omega) (List.forall_mem_append.2 ⟨h, fun o ho => ?_⟩)⟩
      exact hfound o (Option.mem_toList.1 ho)
    · have hnone : routeOccIfSlash chars lineNo (j + 1) k = some none := by
        rw [routeOccIfSlash, if_pos (.inr (by omega))]
      simp only [hk, hnone, Option.bind_some]
      exact ⟨_, rfl, .next (by omega) (by simpa using h)⟩
  · exact ⟨_, rfl, .next (Nat.lt_succ_self i) h⟩
  · exact ⟨_, rfl, .next (Nat.lt_succ_self i) h⟩

theorem firstOccurrences_subset (seen : List (List Char)) (occs : List RouteOcc) :
    ∀ occ ∈ firstOccurrences seen occs, occ ∈ occs ∧ occ.value ∉ seen := by
  induction occs generalizing seen with
  | nil =>
    intro occ hocc
    cases hocc
  | cons first occs ih =>
    intro occ hocc
    rw [firstOccurrences] at hocc
    split_ifs at hocc with hseen
    · obtain ⟨hmem, hnot⟩ := ih seen occ hocc
      exact ⟨List.mem_cons_of_mem _ hmem, hnot⟩
    · rcases List.mem_cons.1 hocc with rfl | hocc
      · exact ⟨List.mem_cons_self, hseen⟩
      · obtain ⟨hmem, hnot⟩ := ih _ occ hocc
        exact ⟨List.mem_cons_of_mem _ hmem, fun h => hnot (List.mem_cons_of_mem _ h)⟩

/-- No two routes are the same. -/
theorem firstOccurrences_nodup (seen : List (List Char)) (occs : List RouteOcc) :
    ((firstOccurrences seen occs).map RouteOcc.value).Nodup := by
  induction occs generalizing seen with
  | nil => exact List.nodup_nil
  | cons first occs ih =>
    rw [firstOccurrences]
    split_ifs
    · exact ih seen
    · refine List.nodup_cons.2 ⟨fun hmem => ?_, ih _⟩
      obtain ⟨occ, hocc, heq⟩ := List.mem_map.1 hmem
      exact (firstOccurrences_subset _ occs occ hocc).2 (heq ▸ List.mem_cons_self)

/-- **The scanners finish**, and read nothing out of range. -/
theorem declarations_spec (classes : CharClasses) (source : List Char) :
    ∃ routes funcs, declarations classes source = some (routes, funcs) ∧
      (∀ route ∈ routes, route.Found (lineNumbers 1 source)) ∧ (routes.map RouteOcc.value).Nodup ∧
      ∀ func ∈ funcs, func.Found classes (lineNumbers 1 source) := by
  have hline := length_lineNumbers 1 source
  obtain ⟨attrs, hattrs, hattrsfound⟩ := scanAttrRoutes_spec hline
  obtain ⟨regions, hregions, hbound⟩ : ∃ regions, scriptRegions source = some regions ∧
    ∀ region ∈ regions, region.2 ≤ source.length := scriptRegions_spec
  obtain ⟨occs, funcs, hscan, hoccs, hfuncs⟩ : ∃ occs funcs,
      scanScripts classes source (lineNumbers 1 source) regions attrs [] = some (occs, funcs) ∧
        (∀ occ ∈ occs, occ.Found (lineNumbers 1 source)) ∧
          ∀ func ∈ funcs, func.Found classes (lineNumbers 1 source) :=
    scanScripts_spec hline hbound hattrsfound fun func hfunc => absurd hfunc List.not_mem_nil
  refine ⟨dedupeRoutes occs, funcs, ?_, ?_, firstOccurrences_nodup [] _, hfuncs⟩
  · simp only [declarations, hattrs, hregions, hscan, Option.bind_eq_bind, Option.bind_some]
  · intro route hroute
    exact hoccs route (Table.mem_sortOn.1 (firstOccurrences_subset [] _ route hroute).1)

end

/-! ## The symbols -/

/-- The searchable text of a route. -/
def routeText (route : RouteOcc) : List Char := truncateText ("route ".toList ++ route.value)

/-- The searchable text of a function. -/
def funcText (func : Func) : List Char := truncateText ("function ".toList ++ func.name)

/-- The name of a function in its id. -/
def funcKey (func : Func) : List Char :=
  func.name ++ '@' :: Nat.toDigits 10 (max func.lineStart 1).toNat

def label : List Char := "html".toList

section

variable (sha256 : List UInt8 → List UInt8) (filePath : List Char)

/-- `build_route_symbol` -/
def routeSymbol (route : RouteOcc) : Symbol :=
  buildSymbol sha256 label filePath (moduleFromPath filePath) .route route.value route.value
    route.value (routeText route) route.lineStart route.lineEnd

/-- `build_func_symbol` -/
def funcSymbol (func : Func) : Symbol :=
  buildSymbol sha256 label filePath (moduleFromPath filePath) .function func.name (funcKey func)
    func.name (funcText func) func.lineStart func.lineEnd

/-- `extract` -/
def extract (classes : CharClasses) (source : List Char) : Option Output := do
  let (routes, funcs) ← declarations classes source
  if routes = [] ∧ funcs = [] then some (textualFallback sha256 .html filePath source)
  else
    some { symbols := routes.map (routeSymbol sha256 filePath) ++ funcs.map (funcSymbol sha256 filePath)
           status := .ok
           language := some (String.ofList label)
           fellBack := false }

end

end Html

end Artifact

end Cognis
