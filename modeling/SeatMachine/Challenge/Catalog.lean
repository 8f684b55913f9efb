import SeatMachine.Challenge.Basic
import SeatMachine.LoadError
/-!
# The catalog

The built-in challenges, in the order in which they are presented.
-/
namespace SeatMachine.Catalog

def challenges : List Challenge :=
  [ { id := "challenge-1"
      title := "Find Maximum"
      description := "Find the maximum value in the array and store it at index 0."
      difficulty := .easy
      initialArray := [3, 7, 2, 9, 1, 5]
      targetArray := [9, 7, 2, 9, 1, 5]
      maxSteps := some 46
      unlocked := true },
    { id := "challenge-2"
      title := "Reverse Array"
      description := "Reverse the array in-place."
      difficulty := .easy
      initialArray := [1, 2, 3, 4, 5]
      targetArray := [5, 4, 3, 2, 1]
      maxSteps := some 20
      unlocked := true },
    { id := "challenge-3"
      title := "Count Even Numbers"
      description := "Count the number of even numbers and store the count at index 0."
      difficulty := .easy
      initialArray := [2, 5, 8, 3, 6, 1]
      targetArray := [3, 5, 8, 3, 6, 1]
      maxSteps := some 25
      unlocked := true },
    { id := "challenge-4"
      title := "Swap First and Last"
      description := "Swap the first and last elements of the array."
      difficulty := .easy
      initialArray := [10, 20, 30, 40, 50]
      targetArray := [50, 20, 30, 40, 10]
      maxSteps := some 10
      unlocked := true },
    { id := "challenge-5"
      title := "Move Zeros to End"
      description := "Move all zeros to the end of the array while keeping the order of non-zero elements."
      difficulty := .medium
      initialArray := [0, 1, 0, 3, 12, 0]
      targetArray := [1, 3, 12, 0, 0, 0]
      maxSteps := some 30
      unlocked := true },
    { id := "challenge-6"
      title := "Find Duplicate"
      description := "The array holds 1 to n with one duplicate. Store the duplicate at index 0."
      difficulty := .medium
      initialArray := [1, 3, 4, 2, 2]
      targetArray := [2, 3, 4, 2, 2]
      maxSteps := some 25
      unlocked := true },
    { id := "challenge-7"
      title := "Two Sum"
      description := "Find two numbers that add up to 9 and store them at indices 0 and 1."
      difficulty := .medium
      initialArray := [2, 7, 11, 15]
      targetArray := [2, 7, 11, 15]
      maxSteps := some 35
      unlocked := true },
    { id := "challenge-8"
      title := "Sort Array (Bubble Sort)"
      description := "Sort the array in ascending order using bubble sort."
      difficulty := .medium
      initialArray := [64, 34, 25, 12, 22, 11, 90]
      targetArray := [11, 12, 22, 25, 34, 64, 90]
      maxSteps := some 50
      unlocked := true },
    { id := "challenge-9"
      title := "Find Missing Number"
      description := "The array holds 0 to n with one number missing. Store it at index 0."
      difficulty := .hard
      initialArray := [3, 0, 1]
      targetArray := [2, 0, 1]
      maxSteps := some 20
      unlocked := false },
    { id := "challenge-10"
      title := "Product Except Self"
      description := "Replace each element with the product of all other elements."
      difficulty := .hard
      initialArray := [1, 2, 3, 4]
      targetArray := [24, 12, 8, 6]
      maxSteps := some 40
      unlocked := false } ]

/-- The built-in challenge with this id. -/
def find (id : String) : Except LoadError Challenge :=
  match challenges.find? fun c => c.id == id with
  | some c => .ok c
  | none => .error (.unknownChallenge id)

end SeatMachine.Catalog
