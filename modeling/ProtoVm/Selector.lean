/-!
# Selectors

A keyword selector is a sequence of keywords, each closed by a colon. Sending one of a small family of
selectors to a block calls it.
-/

namespace ProtoVm.Selector

/-- The keywords that a colon closes, and what stands after the last colon. -/
def split : List Char → List (List Char) × List Char
  | [] => ([], [])
  | c :: cs =>
    match c, split cs with
    | ':', (keywords, rest) => ([] :: keywords, rest)
    | c, ([], rest) => ([], c :: rest)
    | c, (keyword :: keywords, rest) => ((c :: keyword) :: keywords, rest)

/-- The keywords of a selector that ends with a colon or is empty. -/
def keywords? (selector : String) : Option (List (List Char)) :=
  match split selector.toList with
  | (keywords, []) => some keywords
  | _ => none

/-- Whether `selector` with `argc` arguments calls a block: `value` alone, or one keyword for each
argument, the first `value:` or `with:` and the others `With:`. -/
def isBlockCall (selector : String) (argc : Nat) : Bool :=
  if argc = 0 then selector == "value"
  else match keywords? selector with
    | some (first :: others) =>
      others.length + 1 == argc &&
        (first == "value".toList || first == "with".toList) && others.all (· == "With".toList)
    | _ => false

/-- The slot that an assignment selector writes: its text without one closing colon. -/
def assigned (selector : String) : String :=
  match selector.toList.reverse with
  | ':' :: rest => String.ofList rest.reverse
  | _ => selector

end ProtoVm.Selector
