import Dockerfile.Text.Basic

/-!
# Keywords

* `Keyword`: the instructions with a known keyword.
* `Keyword.ofName?`: the keyword that a name spells, in any ASCII case.
* `Keyword.ofName?_eq_some_iff`: a name has the keyword whose letters it has.
-/

namespace Dockerfile

/-- The known instruction keywords. -/
inductive Keyword where
  /-- `FROM`, which declares an image to build on. -/
  | fromImage
  | workdir
  | arg
  | maintainer
  | run
  | cmd
  | label
  | expose
  | env
  | add
  | copy
  | entrypoint
  | healthcheck
  | shell
  | stopsignal
  | onbuild
  | user
  | volume
deriving DecidableEq, Repr

namespace Keyword

/-- All keywords. -/
def all : List Keyword :=
  [fromImage, workdir, arg, maintainer, run, cmd, label, expose, env, add, copy, entrypoint,
   healthcheck, shell, stopsignal, onbuild, user, volume]

/-- The keyword in capital letters. -/
def spelling : Keyword → Text
  | fromImage => "FROM".toList
  | workdir => "WORKDIR".toList
  | arg => "ARG".toList
  | maintainer => "MAINTAINER".toList
  | run => "RUN".toList
  | cmd => "CMD".toList
  | label => "LABEL".toList
  | expose => "EXPOSE".toList
  | env => "ENV".toList
  | add => "ADD".toList
  | copy => "COPY".toList
  | entrypoint => "ENTRYPOINT".toList
  | healthcheck => "HEALTHCHECK".toList
  | shell => "SHELL".toList
  | stopsignal => "STOPSIGNAL".toList
  | onbuild => "ONBUILD".toList
  | user => "USER".toList
  | volume => "VOLUME".toList

/-- The name spells the keyword, in any ASCII case. -/
def spelledBy (k : Keyword) (name : Text) : Bool := Text.sameLetters k.spelling name

/-- The keyword that a name spells, in any ASCII case. -/
def ofName? (name : Text) : Option Keyword := all.find? (·.spelledBy name)

theorem mem_all (k : Keyword) : k ∈ all := by cases k <;> decide

/-- Two keywords differ in their letters. -/
theorem spelling_injective {k l : Keyword}
    (h : Text.foldCase k.spelling = Text.foldCase l.spelling) : k = l := by
  revert h
  cases k <;> cases l <;> decide

theorem ofName?_eq_some_iff {name : Text} {k : Keyword} :
    ofName? name = some k ↔ Text.foldCase k.spelling = Text.foldCase name := by
  have spelled {l : Keyword} (h : ofName? name = some l) :
      Text.foldCase l.spelling = Text.foldCase name :=
    Text.sameLetters_iff.mp (List.find?_some (p := fun m : Keyword => m.spelledBy name) h)
  refine ⟨spelled, fun h => ?_⟩
  cases hf : ofName? name with
  | none =>
    exact absurd (Text.sameLetters_iff.mpr h) (List.find?_eq_none.mp hf k (mem_all k))
  | some l => rw [spelling_injective ((spelled hf).trans h.symm)]

end Keyword

end Dockerfile
