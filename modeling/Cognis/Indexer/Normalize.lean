/-
  The text of a symbol under its id (`parser/normalize.rs`): what is left of it without
  comments and blanks, the hash of that, and the id that ends with the hash.

  * `symbolId_inj`: an id determines the name and the hash in it.
-/
import Cognis.Core.Identity
import Cognis.Lib.Regex
import Cognis.Lib.Words

namespace Cognis

open Regex

/-! ## `normalize_body` -/

/-- How many characters come before the first `close`, if there is one. -/
def untilClose (close : List Char) : List Char → Option ℕ
  | [] => if close = [] then some 0 else none
  | c :: cs => if close <+: c :: cs then some 0 else (untilClose close cs).map (· + 1)

/-- `replace_all` of `open.*?close` by a blank, over lines too; `skip` characters belong to
    the match that has been found. -/
def replaceDelimited (opening close : List Char) : ℕ → List Char → List Char
  | _, [] => []
  | skip + 1, _ :: cs => replaceDelimited opening close skip cs
  | 0, c :: cs =>
    if opening <+: c :: cs then
      match untilClose close ((c :: cs).drop opening.length) with
      | some inner =>
        ' ' :: replaceDelimited opening close (opening.length + inner + close.length - 1) cs
      | none => c :: replaceDelimited opening close 0 cs
    else c :: replaceDelimited opening close 0 cs

/-- `block_comment` -/
def stripBlockComments (text : List Char) : List Char :=
  replaceDelimited ['/', '*'] ['*', '/'] 0 text

/-- `triple_double` -/
def stripTripleDouble (text : List Char) : List Char :=
  replaceDelimited ['"', '"', '"'] ['"', '"', '"'] 0 text

/-- `triple_single` -/
def stripTripleSingle (text : List Char) : List Char :=
  replaceDelimited ['\'', '\'', '\''] ['\'', '\'', '\''] 0 text

/-- `single_line_comment` -/
def singleLineComment : Regex Char :=
  seq (alt (lit ['/', '/']) (cls (· = '#'))) (many (· ≠ '\n'))

/-- `whitespace` -/
def whitespaceRun : Regex Char := plus isWhitespace

/-- `normalize_body` -/
def normalizeBody (text : List Char) : List Char :=
  let text := stripTripleSingle (stripTripleDouble (stripBlockComments text))
  let text := singleLineComment.replaceAll (fun _ _ => [' ']) text
  Text.trim (whitespaceRun.replaceAll (fun _ _ => [' ']) text)

/-! ## Ids -/
section
variable (sha256 : List UInt8 → List UInt8)

/-- `SHORT_HASH_LEN` -/
def shortHashLen : ℕ := 16

/-- The hash of a normalised text. -/
def shortHash (text : List Char) : List Char :=
  (hexLower (sha256 (asBytes (String.ofList text)))).take shortHashLen

/-- `content_hash` -/
def contentHash (body : List Char) : List Char := shortHash sha256 (normalizeBody body)

/-- `make_symbol_id` -/
def makeSymbolId (lang filePath qualifiedName body : List Char) : List Char :=
  lang ++ ':' :: filePath ++ ':' :: qualifiedName ++ '@' :: contentHash sha256 body

variable {sha256}

theorem at_notMem_contentHash (body : List Char) : '@' ∉ contentHash sha256 body := by
  intro hmem
  obtain ⟨b, -, hb⟩ := List.mem_flatMap.1 (List.mem_of_mem_take hmem)
  have hdigit : ∀ n < 16, Nat.digitChar n ≠ '@' := by decide
  have hlow : b.toNat / 16 < 16 := by
    have := b.toNat_lt
    omega
  rw [List.mem_cons, List.mem_singleton] at hb
  rcases hb with hb | hb
  · exact hdigit _ hlow hb.symm
  · exact hdigit _ (Nat.mod_lt _ (by decide)) hb.symm

/-- **An id determines the name and the hash in it.** -/
theorem symbolId_inj {lang filePath name name' body body' : List Char}
    (h : makeSymbolId sha256 lang filePath name body =
      makeSymbolId sha256 lang filePath name' body') :
    name = name' ∧ contentHash sha256 body = contentHash sha256 body' := by
  simp only [makeSymbolId, List.append_assoc, List.cons_append, List.append_cancel_left_eq,
    List.cons.injEq, true_and] at h
  have hhash : contentHash sha256 body = contentHash sha256 body' := by
    have hlast := congrArg (afterLast '@') h
    rwa [afterLast_append (at_notMem_contentHash _), afterLast_append (at_notMem_contentHash _)]
      at hlast
  rw [hhash, List.append_cancel_right_eq] at h
  exact ⟨h, hhash⟩

end

end Cognis
