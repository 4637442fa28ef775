import HandlerGrammar.WordSet

/-! # Vocabularies

A vocabulary fixes the words that are reserved and the symbols that are scanned but dropped. Every
vocabulary reserves `null` and drops tabs and line breaks; a grammar may add to both. -/
namespace HandlerGrammar
set_option autoImplicit false

structure Vocabulary where
  reserved : WordSet
  ignored : WordSet
  deriving DecidableEq

namespace Vocabulary

def standard : Vocabulary :=
  ⟨WordSet.ofList ["null"], WordSet.ofList ["\t", "\r", "\n"]⟩

/-- The vocabulary with more reserved words and more ignored symbols. -/
def extend (v : Vocabulary) (words symbols : List String) : Vocabulary :=
  ⟨v.reserved.insertAll words, v.ignored.insertAll symbols⟩

def isReserved (v : Vocabulary) (word : String) : Bool := v.reserved.contains word

def isIgnored (v : Vocabulary) (symbol : String) : Bool := v.ignored.contains symbol

theorem isReserved_extend (v : Vocabulary) (words symbols : List String) (w : String) :
    (v.extend words symbols).isReserved w = (words.contains w || v.isReserved w) :=
  WordSet.contains_insertAll v.reserved words w

theorem isIgnored_extend (v : Vocabulary) (words symbols : List String) (s : String) :
    (v.extend words symbols).isIgnored s = (symbols.contains s || v.isIgnored s) :=
  WordSet.contains_insertAll v.ignored symbols s

end Vocabulary
end HandlerGrammar
