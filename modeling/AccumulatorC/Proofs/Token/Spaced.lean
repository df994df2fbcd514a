import Mathlib.Data.List.Forall2
import AccumulatorC.Proofs.Token.Separated

/-!
# Tokens with blanks between them

Every sequence of tokens that can be spelled is the sequence of the tokens of some text: their
spellings, one after the other and each followed by a blank, are read as these tokens.
-/

namespace AccumulatorC

/-- Texts on one line, each followed by a blank. -/
def spaced (texts : List (List Char)) : List Char := texts.flatMap (· ++ [' '])

theorem Separated.blank {c : Char} {tokens : List Token} {text : List Char}
    (hblank : Lexeme.isBlank c = true) (h : Separated tokens text) :
    Separated tokens (c :: text) := by
  cases h with
  | gap hgap => exact .gap (.blank hblank hgap)
  | token hgap htext hafter hrest => exact .token (.blank hblank hgap) htext hafter hrest

/-- Spellings with blanks between them are separated. -/
theorem separated_spaced {tokens : List Token} {texts : List (List Char)}
    (h : List.Forall₂ Token.Spelling tokens texts) : Separated tokens (spaced texts) := by
  induction h with
  | nil => exact .gap .nil
  | @cons token text tokens texts hspelling _ ih =>
      have hrest : Separated (token :: tokens) ([] ++ text ++ ' ' :: spaced texts) :=
        .token .nil hspelling (.blank rfl) (.blank rfl ih)
      simpa [spaced] using hrest

/-! ## Through inclusions -/

/-- Tokens without a directive stand for themselves. -/
theorem expandTokens_plain {enter : Path → Location → StateM Inclusions Expansion}
    {directory : Path} {tokens : List (Located Token)}
    (h : ∀ token ∈ tokens, token.value ≠ .inclusion) (state : Inclusions) :
    (expandTokens enter directory tokens).run state = (⟨tokens, []⟩, state) := by
  fun_induction expandTokens enter directory tokens with
  | case1 => rfl
  | case2 token hinclusion => exact absurd hinclusion (h token List.mem_cons_self)
  | case3 token hinclusion => rfl
  | case4 token next rest hinclusion => exact absurd hinclusion (h token List.mem_cons_self)
  | case5 token next rest hinclusion => exact absurd hinclusion (h token List.mem_cons_self)
  | case6 token next rest hinclusion ih =>
      have hrest := ih fun token hmem => h token (List.mem_cons_of_mem _ hmem)
      simp only [bind_pure_comp, StateT.run_map, hrest]
      rfl

namespace FileTree

/-- The text of tokens stands for the tokens and opens no file, if none of them is a directive. -/
theorem expandText_of_spaced (tree : FileTree) (name : String) (directory : Path)
    {tokens : List Token} {texts : List (List Char)}
    (h : List.Forall₂ Token.Spelling tokens texts) (hplain : .inclusion ∉ tokens) :
    ∃ located : List (Located Token),
      tree.expandText name (String.ofList (spaced texts)).toUTF8 directory =
          (⟨located, []⟩, ⟨[], []⟩) ∧
        located.map (·.value) = tokens := by
  obtain ⟨located, hlocated, hvalues⟩ := Reading.tokens_of_separated name (separated_spaced h)
  refine ⟨located, ?_, hvalues⟩
  have hnone : ∀ token ∈ located, token.value ≠ .inclusion := by
    intro token hmem hvalue
    apply hplain
    rw [← hvalues, ← hvalue]
    exact List.mem_map_of_mem hmem
  rw [expandText, expandReading, hlocated]
  exact expandTokens_plain hnone _

end FileTree

end AccumulatorC
