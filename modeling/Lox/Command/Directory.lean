import Lox.Command
/-!
Directories held in memory, for commands that are to see these files and no others.
-/
namespace Lox

/-- Files by their names, and the names of empty directories. Steps of a name are parted by
slashes. -/
structure Directory where
  files : List (List String × ByteArray)
  directories : List (List String)

namespace Directory

def steps (path : String) : List String := path.splitOn "/"

def ofNames (files : List (String × ByteArray)) (directories : List String) : Directory :=
  ⟨files.map fun (name, bytes) => (steps name, bytes), directories.map steps⟩

def holds (d : Directory) (place : List String) : Bool :=
  (d.files.map Prod.fst ++ d.directories).any place.isPrefixOf

/-- Whether steps from outside of the directory stay outside. No other name is known there. -/
def staysOutside (path : List String) : Bool := path.all fun step => step ∈ ["", ".", ".."]

/-- What the steps lead to from a directory at `place`. The steps between slashes have to be
directories. -/
def walk (d : Directory) (place : List String) : List String → Except FileError ByteArray
  | [] => .error .isDirectory
  | "" :: path | "." :: path => d.walk place path
  | ".." :: path =>
    if place.isEmpty then .error (if staysOutside path then .isDirectory else .notFound)
    else d.walk place.dropLast path
  | step :: path =>
    match d.files.lookup (place ++ [step]) with
    | some bytes => if path.isEmpty then .ok bytes else .error .notDirectory
    | none => if d.holds (place ++ [step]) then d.walk (place ++ [step]) path else .error .notFound

/-- What a path leads to. A path from the root leads to nothing that is held here. -/
def read (d : Directory) (path : String) : Except FileError ByteArray :=
  if path = "" then .error .notFound
  else
    match steps path with
    | "" :: path => .error (if staysOutside path then .isDirectory else .notFound)
    | path => d.walk [] path

end Directory
end Lox
