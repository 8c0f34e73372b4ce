/-!
# Ordered pairs

Tables are lists of pairs in which a key may stand several times; the last pair with a key is the
one that counts. Looking up, replacing and removing all act on that last pair and leave the others
where they are. Lists that are sorted by name have each name once.
-/

namespace RemoteCall.Pairs

variable {α β : Type}

/-- The value of the last pair whose key is chosen. -/
def findLast? (chosen : α → Bool) : List (α × β) → Option β
  | [] => none
  | pair :: rest =>
    (findLast? chosen rest).or (if chosen pair.1 then some pair.2 else none)

/-- The list with a new value in the last pair whose key is chosen. -/
def replaceLast? (chosen : α → Bool) (value : β) : List (α × β) → Option (List (α × β))
  | [] => none
  | pair :: rest =>
    match replaceLast? chosen value rest with
    | some rest => some (pair :: rest)
    | none => if chosen pair.1 then some ((pair.1, value) :: rest) else none

/-- The list without the last pair whose key is chosen. -/
def eraseLast? (chosen : α → Bool) : List (α × β) → Option (List (α × β))
  | [] => none
  | pair :: rest =>
    match eraseLast? chosen rest with
    | some rest => some (pair :: rest)
    | none => if chosen pair.1 then some rest else none

/-- Puts a value under a name into a list sorted by name, in place of the one that was there. -/
def insertSorted (name : String) (value : β) : List (String × β) → List (String × β)
  | [] => [(name, value)]
  | (n, old) :: rest =>
    if n = name then (name, value) :: rest
    else if name < n then (name, value) :: (n, old) :: rest
    else (n, old) :: insertSorted name value rest

end RemoteCall.Pairs
