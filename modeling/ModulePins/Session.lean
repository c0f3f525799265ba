import ModulePins.Gate
import ModulePins.Prompt
import ModulePins.Release.Notes

/-!
# Sessions

A user at a console and a release service together can be asked for consent to upgrades: the service
has the release notes and the user decides.
-/

namespace ModulePins

/-- A console and the state behind a release service. -/
structure Session (σ : Type) where
  console : Console
  service : σ

namespace Session

variable {σ : Type} {α : Type}

def atConsole (x : StateM Console α) : StateM (Session σ) α := fun s =>
  let (a, console) := x s.console
  (a, { s with console })

def atService (x : StateM σ α) : StateM (Session σ) α := fun s =>
  let (a, service) := x s.service
  (a, { s with service })

def inquiry (env : Environment) (service : Release.Service σ) : Gate.Inquiry (Session σ) where
  isInteractive := return env.isInteractive
  fetchNotes name version token := atService (Release.fetchNotes service env name version token)
  confirm name fromVersion toVersion notes :=
    atConsole (Console.confirmUpgrade name fromVersion toVersion notes)

end Session

end ModulePins
