/-!
# Quoted text

A string literal stands between double quotes.  A quote inside it is written after a backslash, and
nothing else is escaped: a backslash in front of any other character stands for itself.
-/

namespace SpirvText.Text

def quoteChars (cs : List Char) : List Char :=
  cs.flatMap fun c ↦ if c = '"' then ['\\', '"'] else [c]

def quoted (text : String) : String :=
  String.ofList ('"' :: quoteChars text.toList ++ ['"'])

/-- Reads a string literal up to its closing quote: its text, and what comes after the quote. -/
def unquote? : List Char → Option (List Char × List Char)
  | [] => none
  | '"' :: rest => some ([], rest)
  | '\\' :: '"' :: cs => (unquote? cs).map fun (text, rest) ↦ ('"' :: text, rest)
  | c :: cs => (unquote? cs).map fun (text, rest) ↦ (c :: text, rest)

/-- A string literal takes at least its closing quote. -/
theorem length_lt_of_unquote? {cs text rest : List Char} (h : unquote? cs = some (text, rest)) :
    rest.length < cs.length := by
  fun_induction unquote? cs generalizing text with
  | case1 => simp at h
  | case2 => simp_all
  | case3 cs ih =>
    obtain ⟨⟨_, _⟩, h', heq⟩ := Option.map_eq_some_iff.1 h
    cases heq
    have := ih h'
    simp only [List.length_cons]
    omega
  | case4 c cs _ _ ih =>
    obtain ⟨⟨_, _⟩, h', heq⟩ := Option.map_eq_some_iff.1 h
    cases heq
    have := ih h'
    simp only [List.length_cons]
    omega

end SpirvText.Text
