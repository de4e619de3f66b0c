import DensityKernel.Density.MultiIndex

/-!
The fixed parts of the C file of a functional: the banner, the entry in the
table of functionals, the reading hook, and the frames of the energy and
derivative routines. Every part begins and ends with a line feed, so that the
parts can be put one after the other.
-/

namespace DensityKernel.C

/-- Lines with a line feed after each. -/
def linesText (lines : List String) : String :=
  String.join (lines.map (· ++ "\n"))

/-- The name of the constant that holds the density threshold. -/
def thresholdName (name : String) : String :=
  name.map Char.toUpper ++ "_THRESHOLD"

/-- The banner of the file and its includes. -/
def banner (name title info : String) : String :=
  linesText [
    "",
    "/*",
    "!",
    "!  Dalton, a molecular electronic structure program",
    "!  Copyright (C) 2020 by the authors of Dalton.",
    "!",
    "!  This program is free software; you can redistribute it and/or",
    "!  modify it under the terms of the GNU Lesser General Public",
    "!  License version 2.1 as published by the Free Software Foundation.",
    "!",
    "!  This program is distributed in the hope that it will be useful,",
    "!  but WITHOUT ANY WARRANTY; without even the implied warranty of",
    "!  MERCHANTABILITY or FITNESS FOR A PARTICULAR PURPOSE.  See the GNU",
    "!  Lesser General Public License for more details.",
    "!",
    "!  If a copy of the GNU LGPL v2.1 was not distributed with this",
    "!  code, you can obtain one at https://www.gnu.org/licenses/old-licenses/lgpl-2.1.en.html.",
    "!",
    "!",
    "*/",
    "/*-*-mode: C; c-indentation-style: \"bsd\"; c-basic-offset: 4; -*-*/",
    "/* fun-" ++ name ++ ".c:",
    "   implementation of " ++ title ++ " functional and its derivatives",
    "   (c) Pawel Salek, pawsa@theochem.kth.se, aug 2001",
    "   Z. Rinkevicius adapted for open shell systems: energy, first derivatives.",
    "   NOTE:",
    "   this file may seem unnecessarily complex but the structure really pays off",
    "   when implementing multiple functionals depending on different parameters.",
    "",
    "   Derivatives in this file generated by xcgen",
    "",
    info,
    "*/",
    "",
    "#include <math.h>",
    "#include <stdio.h>",
    "#include \"general.h\"",
    "",
    "#define __CVERSION__",
    "",
    "#include \"functionals.h\""]

/-- The prototypes and the entry in the table of functionals. -/
def interface (name title : String) (gradients : Bool) : String :=
  linesText [
    "",
    "/* INTERFACE PART */",
    "static integer " ++ name ++ "_isgga(void) \x7b return " ++ (if gradients then "1" else "0")
      ++ "; \x7d",
    "static integer " ++ name ++ "_read(const char* conf_line);",
    "static real " ++ name ++ "_energy(const FunDensProp* dp);",
    "static void " ++ name ++ "_first(FunFirstFuncDrv *ds,   real fac, const FunDensProp*);",
    "static void " ++ name ++ "_second(FunSecondFuncDrv *ds, real fac, const FunDensProp*);",
    "static void " ++ name ++ "_third(FunThirdFuncDrv *ds,   real fac, const FunDensProp*);",
    "static void " ++ name ++ "_fourth(FunFourthFuncDrv *ds, real fac, const FunDensProp*);",
    "",
    "Functional " ++ title ++ "Functional = \x7b",
    "  \"" ++ title ++ "\",       /* name */",
    "  " ++ name ++ "_isgga,   /* gga-corrected */",
    "   3,",
    "  " ++ name ++ "_read,",
    "  NULL,",
    "  " ++ name ++ "_energy,",
    "  " ++ name ++ "_first,",
    "  " ++ name ++ "_second,",
    "  " ++ name ++ "_third,",
    "  " ++ name ++ "_fourth",
    "\x7d;"]

/-- The reading hook, and the threshold constant if there is one. -/
def readHook (name : String) (threshold : Option String) : String :=
  linesText [
    "",
    "/* IMPLEMENTATION PART */",
    "static integer",
    name ++ "_read(const char* conf_line)",
    "\x7b",
    "    fun_set_hf_weight(0);",
    "    return 1;",
    "\x7d"]
  ++ match threshold with
    | none => ""
    | some value =>
      linesText [
        "",
        "/* " ++ thresholdName name ++ " Only to avoid numerical problems due to raising 0",
        " * to a fractional power. */",
        "static const real " ++ thresholdName name ++ " = " ++ value ++ ";"]

/-- The energy routine around its body; `preamble` stands in front of it. -/
def energyFrame (name preamble body : String) : String :=
  linesText [
    "",
    preamble,
    "static real",
    name ++ "_energy(const FunDensProp* dp)",
    "\x7b",
    body ++ "\x7d"]

/-- The energy routine of two channels, each of which counts only above the
threshold. -/
def guardedEnergyFrame (name preamble alpha beta : String) : String :=
  linesText [
    "",
    "static real",
    name ++ "_energy(const FunDensProp* dp)",
    "\x7b",
    "  real ea = 0.0, eb = 0.0;",
    preamble,
    "  if (dp->rhoa >" ++ thresholdName name ++ ")",
    "      ea = " ++ alpha ++ ";",
    "  if (dp->rhob >" ++ thresholdName name ++ ")",
    "      eb = " ++ beta ++ ";",
    "  return ea + eb;",
    "\x7d"]

/-- The ending of a derivative routine's name, and the type of its accumulator. -/
def derivativeSignature (order : DerivativeOrder) : String × String :=
  match order.toNat with
  | 1 => ("first", "FunFirstFuncDrv")
  | 2 => ("second", "FunSecondFuncDrv")
  | 3 => ("third", "FunThirdFuncDrv")
  | _ => ("fourth", "FunFourthFuncDrv")

/-- A derivative routine around its body. -/
def derivativeFrame (name : String) (order : DerivativeOrder) (body : String) : String :=
  let (ending, accumulator) := derivativeSignature order
  linesText [
    "",
    "static void",
    name ++ "_" ++ ending ++ "(" ++ accumulator
      ++ " *ds, real factor, const FunDensProp* dp)",
    "\x7b",
    body ++ "\x7d"]

/-- Statements under the condition that a density is above the threshold. A
single statement needs no braces. -/
def guarded (density constant block : String) (single : Bool) : String :=
  if single then "  if (" ++ density ++ ">" ++ constant ++ ")\n" ++ block
  else "  if (" ++ density ++ ">" ++ constant ++ ") \x7b\n" ++ block ++ "     \x7d\n"

end DensityKernel.C
