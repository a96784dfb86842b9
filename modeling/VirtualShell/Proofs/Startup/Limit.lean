import VirtualShell.Proofs.Tree.Plan
import VirtualShell.Startup.Program

/-!
# The limit that the shell is started with

A configuration file may name a positive limit only, no option names one, and where none is named
the standard one counts. So there is room for a line at the start, whatever the command line and the
host's files are (`Program.nestingLimit_pos_of_prepare`).
-/

namespace VirtualShell

open Outcome (bind_eq_ok mapError_eq_ok)

/-! ## Options -/

@[simp]
theorem CommandOption.nestingLimit_apply (s : Settings) (value : Bytes) (option : CommandOption) :
    (option.apply s value).nestingLimit = s.nestingLimit := by
  cases option <;> rfl

namespace Arguments

variable {s s' : Settings} {rest rest' : List Bytes}

theorem nestingLimit_of_readLetters {letters : Bytes}
    (h : readLetters s rest letters = .ok (s', rest')) : s'.nestingLimit = s.nestingLimit := by
  induction letters generalizing s with
  | nil =>
    cases h
    rfl
  | cons letter letters ih =>
    rw [readLetters] at h
    split at h
    · cases h
    · split at h
      · rw [ih h, CommandOption.nestingLimit_apply]
      -- The value of the option is the rest of the word or the next word.
      · split at h
        · cases h
          exact CommandOption.nestingLimit_apply _ _ _
        · split at h
          · cases h
          · cases h
            exact CommandOption.nestingLimit_apply _ _ _

theorem nestingLimit_of_readLong {text : Bytes} (h : readLong s rest text = .ok (s', rest')) :
    s'.nestingLimit = s.nestingLimit := by
  rw [readLong] at h
  split at h
  · cases h
  · split at h
    · split at h
      · cases h
        exact CommandOption.nestingLimit_apply _ _ _
      · cases h
        exact CommandOption.nestingLimit_apply _ _ _
      · cases h
    · split at h
      · cases h
        exact CommandOption.nestingLimit_apply _ _ _
      · cases h
  · cases h

theorem nestingLimit_of_readWords {place : OptionPlace} {fuel : Nat} {words operands : List Bytes}
    (h : readWords place fuel s words = .ok (s', operands)) : s'.nestingLimit = s.nestingLimit := by
  induction fuel generalizing s words operands with
  | zero =>
    cases h
    rfl
  | succ fuel ih =>
    cases words with
    | nil =>
      cases h
      rfl
    | cons word rest =>
      unfold readWords at h
      split at h
      · cases h
        rfl
      · obtain ⟨⟨next, rest⟩, long, read⟩ := bind_eq_ok.1 h
        dsimp only at read
        rw [ih read, nestingLimit_of_readLong long]
      · obtain ⟨⟨next, rest⟩, letters, read⟩ := bind_eq_ok.1 h
        dsimp only at read
        rw [ih read, nestingLimit_of_readLetters letters]
      -- An operand ends the options, or more of them are read behind it.
      · split at h
        · cases h
          rfl
        · obtain ⟨⟨next, operands⟩, read, same⟩ := bind_eq_ok.1 h
          cases same
          exact ih read

/-- No word of the command line says how deep lines may run inside lines. -/
theorem nestingLimit_of_read {terminal : Bool} {words : List Bytes} {place : OptionPlace}
    {invocation : Invocation} (h : read s terminal words place = .ok invocation) :
    invocation.settings.nestingLimit = s.nestingLimit := by
  obtain ⟨⟨next, operands⟩, words, rest⟩ := bind_eq_ok.1 h
  rw [← nestingLimit_of_readWords words]
  cases terminal <;> cases operands <;> cases rest <;> rfl

end Arguments

/-! ## The configuration file -/

namespace Configuration

variable {c : Configuration} {limit : Int}

theorem nestingLimit_pos_of_read {text : Bytes} (h : read text = .ok c)
    (named : c.nestingLimit = some limit) : 0 < limit := by
  unfold read at h
  split at h
  · cases h
  · simp only [bind_eq_ok] at h
    obtain ⟨_, -, _, -, read, -, h⟩ := h
    by_cases refused : read.any (· ≤ 0) = true
    · rw [if_pos refused] at h
      cases h
    · rw [if_neg refused] at h
      simp only [bind_eq_ok] at h
      obtain ⟨_, -, _, -, same⟩ := h
      cases same
      dsimp only at named
      subst named
      simpa using refused
  · cases h

/-- A limit that a configuration file names is positive. -/
theorem nestingLimit_pos_of_load {disk : Disk} {path : Bytes} (h : load disk path = .ok c)
    (named : c.nestingLimit = some limit) : 0 < limit := by
  unfold load at h
  split at h
  · cases h
    cases named
  · split at h
    · cases h
    · exact nestingLimit_pos_of_read (mapError_eq_ok.1 h) named

theorem nestingLimit_pos_applyTo {s : Settings} (standard : 0 < s.nestingLimit)
    (named : ∀ limit, c.nestingLimit = some limit → 0 < limit) :
    0 < (c.applyTo s).nestingLimit := by
  cases found : c.nestingLimit with
  | none => simpa [applyTo, found] using standard
  | some limit => simpa [applyTo, found] using named limit found

end Configuration

/-! ## Starting -/

namespace Program

open ShellAction

theorem nestingLimit_pos_of_loadConfiguration {home : Bytes} {w : World} {limit : Int}
    (named : ((loadConfiguration home).run w).value.nestingLimit = some limit) : 0 < limit := by
  rw [loadConfiguration, run_world_bind] at named
  split at named
  · rename_i c loaded
    exact Configuration.nestingLimit_pos_of_load loaded named
  · cases named

/-- **There is room at the start**: whatever the shell is started with and whatever the host's
files say, the limit of a run that goes on is positive. -/
theorem nestingLimit_pos_of_prepare {l : Launch} {w : World} {plan : Plan}
    (h : ((prepare l).run w).value = .ok plan) : 0 < plan.settings.nestingLimit := by
  rw [prepare, run_bind] at h
  let configuration := ((loadConfiguration l.home).run w).value
  have positive : 0 < (configuration.applyTo (Settings.standard l.home)).nestingLimit :=
    Configuration.nestingLimit_pos_applyTo (by decide : (0 : Int) < 64) fun _ =>
      nestingLimit_pos_of_loadConfiguration
  dsimp only at h
  split at h
  · cases h
  · rename_i invocation read
    rw [← Arguments.nestingLimit_of_read read] at positive
    -- A run that shows the version or the help text ends there.
    split at h
    · cases h
    · split at h
      · cases h
      · cases h
        exact positive

end Program

end VirtualShell
